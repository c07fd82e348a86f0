import Mathlib.Data.List.Lex
import Scriptlet.Proofs.Spread

/-!
# The order of the bytes of strings

A code point is encoded by a first byte and up to three more. The first byte tells
how many bytes follow and holds the highest bits, and each byte that follows holds
six more bits. Of two code points the smaller one has the smaller first byte, or else
the first bytes agree, equally many bytes follow, and the first place where they
differ decides. So strings have the same order by their bytes and by their code
points.
-/
namespace Scriptlet.Utf8

/-! ### Code points -/

/-- How many bytes follow the first byte of a code point. -/
def following (n : Nat) : Nat :=
  if n ≤ 0x7f then 0 else if n ≤ 0x7ff then 1 else if n ≤ 0xffff then 2 else 3

def mark : Nat → Nat
  | 0 => 0
  | 1 => 0xc0
  | 2 => 0xe0
  | _ => 0xf0

def lead (n : Nat) : Nat := n / 64 ^ following n + mark (following n)

/-- The lowest `6 * k` bits of a number in `k` bytes, the highest bits first. -/
def trail : Nat → Nat → List UInt8
  | 0, _ => []
  | k + 1, n => trail k (n / 64) ++ [UInt8.ofNat (n % 64 + 0x80)]

theorem toNat_lt (c : Char) : c.toNat < 0x110000 := by
  have hvalid : c.toNat < 0xd800 ∨ 0xdfff < c.toNat ∧ c.toNat < 0x110000 := c.valid
  omega

theorem encode_eq (c : Char) :
    String.utf8EncodeChar c =
      UInt8.ofNat (lead c.toNat) :: trail (following c.toNat) c.toNat := by
  have hlt : c.toNat < 0x110000 := toNat_lt c
  unfold String.utf8EncodeChar lead following
  dsimp only [Char.toNat_val]
  split_ifs with h₁ h₂ h₃
  · simp [trail, mark]
  · have hmod : c.toNat / 64 % 0x20 = c.toNat / 64 := Nat.mod_eq_of_lt (by omega)
    simp [trail, mark, hmod]
  · have hmod : c.toNat / 4096 % 0x10 = c.toNat / 4096 := Nat.mod_eq_of_lt (by omega)
    simp [trail, mark, hmod]
  · have hmod : c.toNat / 262144 % 0x08 = c.toNat / 262144 := Nat.mod_eq_of_lt (by omega)
    simp [trail, mark, hmod, Nat.div_div_eq_div_mul]

theorem following_mono {m n : Nat} (h : m ≤ n) : following m ≤ following n := by
  unfold following
  split_ifs <;> omega

theorem lead_lt_size {n : Nat} (h : n < 0x110000) : lead n < UInt8.size := by
  unfold lead following
  split_ifs <;> simp only [mark, UInt8.size] <;> omega

theorem lead_lt_of_following_lt {m n : Nat} (h : following m < following n) : lead m < lead n := by
  unfold lead following at *
  split_ifs at * <;> simp only [mark] <;> omega

/-- Numbers that agree above the lowest `6 * k` bits are compared by these bits. -/
theorem lex_trail {k m n : Nat} (hlt : m < n) (htop : m / 64 ^ k = n / 64 ^ k) (s t : List UInt8) :
    List.Lex (· < ·) (trail k m ++ s) (trail k n ++ t) := by
  induction k generalizing m n s t with
  | zero =>
    rw [Nat.pow_zero, Nat.div_one, Nat.div_one] at htop
    omega
  | succ k ih =>
    rw [trail, trail, List.append_assoc, List.append_assoc]
    by_cases hhigh : m / 64 = n / 64
    · -- all bytes but the last agree
      have hlow : m % 64 < n % 64 := by omega
      have hbyte : UInt8.ofNat (m % 64 + 0x80) < UInt8.ofNat (n % 64 + 0x80) := by
        have hsize (i : Nat) : i % 64 + 0x80 < UInt8.size := by
          rw [UInt8.size]
          omega
        exact (UInt8.ofNat_lt_iff_lt (hsize m) (hsize n)).2 (Nat.add_lt_add_right hlow _)
      rw [hhigh]
      exact List.Lex.append_left _ (List.Lex.rel hbyte) _
    · rw [Nat.pow_succ', ← Nat.div_div_eq_div_mul, ← Nat.div_div_eq_div_mul] at htop
      exact ih (by omega) htop _ _

theorem lex_encode {a b : Char} (h : a < b) (s t : List UInt8) :
    List.Lex (· < ·) (String.utf8EncodeChar a ++ s) (String.utf8EncodeChar b ++ t) := by
  have hlt : a.toNat < b.toNat := h
  have hlead : lead a.toNat < lead b.toNat →
      UInt8.ofNat (lead a.toNat) < UInt8.ofNat (lead b.toNat) :=
    (UInt8.ofNat_lt_iff_lt (lead_lt_size (toNat_lt a)) (lead_lt_size (toNat_lt b))).2
  rw [encode_eq, encode_eq, List.cons_append, List.cons_append]
  -- the first byte decides unless both code points take equally many bytes and agree
  -- in the bits that it holds
  rcases Nat.lt_or_eq_of_le (following_mono (Nat.le_of_lt hlt)) with hfewer | hsame
  · exact List.Lex.rel (hlead (lead_lt_of_following_lt hfewer))
  · rw [lead, lead, hsame] at hlead ⊢
    have htop := Nat.div_le_div_right (c := 64 ^ following b.toNat) (Nat.le_of_lt hlt)
    rcases Nat.lt_or_eq_of_le htop with htop | htop
    · exact List.Lex.rel (hlead (Nat.add_lt_add_right htop _))
    · rw [htop]
      exact List.Lex.cons (lex_trail hlt htop s t)

/-! ### Strings -/

/-- A code in which a smaller character makes for a smaller sequence, whatever
follows. -/
structure Ordered {β : Type} [LT β] (code : Char → List β) : Prop where
  ne_nil : ∀ c, code c ≠ []
  lex : ∀ {a b : Char}, a < b → ∀ s t, List.Lex (· < ·) (code a ++ s) (code b ++ t)

namespace Ordered

variable {β : Type} [LT β] {code : Char → List β}

theorem lex_flatMap (h : Ordered code) {x y : List Char} (hxy : List.Lex (· < ·) x y) :
    List.Lex (· < ·) (x.flatMap code) (y.flatMap code) := by
  induction hxy with
  | @nil c cs =>
    obtain ⟨b, bs, hb⟩ := List.exists_cons_of_ne_nil (h.ne_nil c)
    rw [List.flatMap_nil, List.flatMap_cons, hb]
    exact List.Lex.nil
  | cons _ ih =>
    rw [List.flatMap_cons, List.flatMap_cons]
    exact List.Lex.append_left _ ih _
  | rel hab =>
    rw [List.flatMap_cons, List.flatMap_cons]
    exact h.lex hab _ _

/-- The order of the sequences decides the order of the strings, since of two different
strings one is the smaller. -/
theorem lex_flatMap_iff (h : Ordered code) (asymm : ∀ {p q : β}, p < q → ¬q < p) (x y : String) :
    List.Lex (· < ·) (x.toList.flatMap code) (y.toList.flatMap code) ↔ x < y := by
  constructor
  · intro hlex
    by_contra hge
    have hback : ¬List.Lex (· < ·) (y.toList.flatMap code) (x.toList.flatMap code) :=
      List.lex_asymm asymm hlex
    by_cases heq : x = y
    · exact hback (heq ▸ hlex)
    · have hgt : y < x := by
        rw [← String.not_le]
        exact fun hle => heq (String.le_antisymm hle (String.not_lt.1 hge))
      exact hback (h.lex_flatMap hgt)
  · exact h.lex_flatMap

end Ordered

def BytesLt (x y : String) : Prop :=
  List.Lex (· < ·) x.toUTF8.data.toList y.toUTF8.data.toList

def PointsLt (x y : String) : Prop :=
  List.Lex (· < ·) (x.toList.map Char.toNat) (y.toList.map Char.toNat)

theorem bytesLt_iff (x y : String) : BytesLt x y ↔ x < y := by
  have hcode : Ordered String.utf8EncodeChar :=
    ⟨fun _ => String.utf8EncodeChar_ne_nil, lex_encode⟩
  rw [BytesLt, Fnv.utf8_eq_flatMap, Fnv.utf8_eq_flatMap]
  exact hcode.lex_flatMap_iff UInt8.lt_asymm x y

theorem pointsLt_iff (x y : String) : PointsLt x y ↔ x < y := by
  have hcode : Ordered fun c : Char => [c.toNat] :=
    ⟨fun _ => List.cons_ne_nil _ _, fun hab _ _ => List.Lex.rel hab⟩
  rw [PointsLt, List.map_eq_flatMap, List.map_eq_flatMap]
  exact hcode.lex_flatMap_iff Nat.lt_asymm x y

end Scriptlet.Utf8
