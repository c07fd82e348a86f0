import Mathlib.Data.Int.Basic
import Mathlib.Data.List.Basic
import Mathlib.Tactic.Linarith
import Mathlib.Tactic.Ring
import Scriptlet.Proofs.Rewinding
import Scriptlet.Value.Hash

/-!
# Short changes never collide

A step of the hash can be undone, since the prime is odd, so two states that
differ stay different while the same bytes are added to both. Two states that
differ by little are driven apart when they are multiplied by the prime
`2 ^ 40 + 435`: what a byte adds later is too small to bring them back together
within four bytes. So strings that differ in at most four adjacent bytes have
different hashes, and in particular strings that differ in one character, where
both characters take the same number of bytes.
-/
namespace Scriptlet.Fnv

/-! ### States before one step -/

theorem mul_prime_injective {x y : UInt64} (h : x * prime = y * prime) : x = y := by
  calc
    x = x * prime * inverse := by rw [UInt64.mul_assoc, prime_mul_inverse, UInt64.mul_one]
    _ = y * prime * inverse := by rw [h]
    _ = y := by rw [UInt64.mul_assoc, prime_mul_inverse, UInt64.mul_one]

theorem xor_eq_of_step_eq {s t : UInt64} {b c : UInt8} (h : step s b = step t c) :
    s ^^^ b.toUInt64 = t ^^^ c.toUInt64 :=
  mul_prime_injective h

/-! ### How far apart two states are -/

/-- The difference of two words as numbers. -/
def gap (x y : UInt64) : ℤ := (x.toNat : ℤ) - y.toNat

theorem toNat_xor_byte_div (s : UInt64) (b : UInt8) :
    (s ^^^ b.toUInt64).toNat / 256 = s.toNat / 256 := by
  have hb : b.toNat / 2 ^ 8 = 0 := Nat.div_eq_of_lt b.toNat_lt
  have hxor := Nat.xor_div_two_pow (a := s.toNat) (b := b.toNat) (n := 8)
  rwa [hb, Nat.xor_zero, ← UInt8.toNat_toUInt64, ← UInt64.toNat_xor] at hxor

theorem gap_bounds {x y : UInt64} (h : x.toNat / 256 = y.toNat / 256) :
    -255 ≤ gap x y ∧ gap x y ≤ 255 := by
  unfold gap
  omega

theorem eq_of_gap_eq_zero {x y : UInt64} (h : gap x y = 0) : x = y := by
  apply UInt64.toNat_inj.1
  unfold gap at h
  omega

theorem exists_gap_mul_prime (x y : UInt64) :
    ∃ k : ℤ, gap (x * prime) (y * prime) = gap x y * (2 ^ 40 + 435) + 2 ^ 64 * k := by
  have hprime : prime.toNat = 2 ^ 40 + 435 := by decide
  have hx := Nat.div_add_mod (x.toNat * (2 ^ 40 + 435)) (2 ^ 64)
  have hy := Nat.div_add_mod (y.toNat * (2 ^ 40 + 435)) (2 ^ 64)
  refine ⟨(y.toNat * (2 ^ 40 + 435) / 2 ^ 64 : ℕ) - (x.toNat * (2 ^ 40 + 435) / 2 ^ 64 : ℕ), ?_⟩
  unfold gap
  rw [UInt64.toNat_mul, UInt64.toNat_mul, hprime]
  omega

/-- A step adds at most 510 to the gap and multiplies it by the prime. -/
theorem exists_gap_step (s t : UInt64) (b c : UInt8) :
    ∃ e k : ℤ, (-510 ≤ e ∧ e ≤ 510) ∧
      gap (step s b) (step t c) = (gap s t + e) * (2 ^ 40 + 435) + 2 ^ 64 * k := by
  obtain ⟨k, hk⟩ := exists_gap_mul_prime (s ^^^ b.toUInt64) (t ^^^ c.toUInt64)
  have hs := gap_bounds (toNat_xor_byte_div s b)
  have ht := gap_bounds (toNat_xor_byte_div t c)
  refine ⟨gap (s ^^^ b.toUInt64) s - gap (t ^^^ c.toUInt64) t, k, by omega, ?_⟩
  have hgap : gap (s ^^^ b.toUInt64) (t ^^^ c.toUInt64) =
      gap s t + (gap (s ^^^ b.toUInt64) s - gap (t ^^^ c.toUInt64) t) := by
    unfold gap
    omega
  rw [step, step, hk, hgap]

theorem exists_gap_first_step (s : UInt64) (b c : UInt8) :
    ∃ d k : ℤ, (-255 ≤ d ∧ d ≤ 255) ∧ (d = 0 → b = c) ∧
      gap (step s b) (step s c) = d * (2 ^ 40 + 435) + 2 ^ 64 * k := by
  obtain ⟨k, hk⟩ := exists_gap_mul_prime (s ^^^ b.toUInt64) (s ^^^ c.toUInt64)
  have hnear := (toNat_xor_byte_div s b).trans (toNat_xor_byte_div s c).symm
  refine ⟨_, k, gap_bounds hnear, fun hzero => ?_, hk⟩
  have hbytes : b.toUInt64 = c.toUInt64 := (UInt64.xor_right_inj s).1 (eq_of_gap_eq_zero hzero)
  exact UInt8.toUInt64_inj.1 hbytes

theorem gap_bounds_of_step_eq {s t : UInt64} {b c : UInt8} (h : step s b = step t c) :
    -255 ≤ gap s t ∧ gap s t ≤ 255 := by
  apply gap_bounds
  rw [← toNat_xor_byte_div s b, xor_eq_of_step_eq h, toNat_xor_byte_div]

theorem eq_zero_of_low_bits {d u v r m : ℤ} (hd : -255 ≤ d ∧ d ≤ 255) (hu : -510 ≤ u ∧ u ≤ 510)
    (hv : -510 ≤ v ∧ v ≤ 510) (hr : -255 ≤ r ∧ r ≤ 255)
    (h : 435 ^ 3 * d + 435 ^ 2 * u + 435 * v - r = 2 ^ 40 * m) :
    m = 0 ∧ 435 ^ 2 * d + 435 * u + v = 0 := by
  -- the left side is below `2 ^ 40`, and all of it but `r` is a multiple of 435
  have hm : m = 0 := by omega
  rw [hm] at h
  exact ⟨hm, by omega⟩

theorem eq_zero_of_high_bits {d u v n : ℤ} (hu : -510 ≤ u ∧ u ≤ 510) (hv : -510 ≤ v ∧ v ≤ 510)
    (hlow : 435 ^ 2 * d + 435 * u + v = 0)
    (h : 3 * 435 ^ 2 * d + 2 * 435 * u + v = 2 ^ 24 * n) : d = 0 := by
  have hd : -1 ≤ d ∧ d ≤ 1 := by omega
  have hsum : 435 * (2 * 435 * d + u) = 2 ^ 24 * n := by omega
  have hn : n = 0 := by omega
  rw [hn] at hsum
  omega

/-- Three steps on, a gap that was small and not zero is not small. -/
theorem eq_zero_of_small_combination {d u v r : ℤ} (k : ℤ) (hd : -255 ≤ d ∧ d ≤ 255)
    (hu : -510 ≤ u ∧ u ≤ 510) (hv : -510 ≤ v ∧ v ≤ 510) (hr : -255 ≤ r ∧ r ≤ 255)
    (h : r = d * (2 ^ 40 + 435) ^ 3 + u * (2 ^ 40 + 435) ^ 2 + v * (2 ^ 40 + 435) + 2 ^ 64 * k) :
    d = 0 := by
  have hbits : 435 ^ 3 * d + 435 ^ 2 * u + 435 * v - r =
      2 ^ 40 * (-(3 * 435 ^ 2 * d + 2 * 435 * u + v) -
        2 ^ 24 * (k + (2 ^ 56 + 3 * 435 * 2 ^ 16) * d + 2 ^ 16 * u)) := by
    rw [h]
    ring
  obtain ⟨hm, hlow⟩ := eq_zero_of_low_bits hd hu hv hr hbits
  exact eq_zero_of_high_bits hu hv hlow (n := -(k + (2 ^ 56 + 3 * 435 * 2 ^ 16) * d + 2 ^ 16 * u))
    (by linarith only [hm])

theorem byte_eq_of_four_steps {s : UInt64} {b b₁ b₂ b₃ c c₁ c₂ c₃ : UInt8}
    (h : absorb s [b, b₁, b₂, b₃] = absorb s [c, c₁, c₂, c₃]) : b = c := by
  obtain ⟨d, k₀, hd, hzero, h₀⟩ := exists_gap_first_step s b c
  obtain ⟨e₁, k₁, he₁, h₁⟩ := exists_gap_step (step s b) (step s c) b₁ c₁
  obtain ⟨e₂, k₂, he₂, h₂⟩ := exists_gap_step (step (step s b) b₁) (step (step s c) c₁) b₂ c₂
  have hr := gap_bounds_of_step_eq h
  refine hzero (eq_zero_of_small_combination
    (k₀ * (2 ^ 40 + 435) ^ 2 + k₁ * (2 ^ 40 + 435) + k₂) hd he₁ he₂ hr ?_)
  rw [h₂, h₁, h₀]
  ring

/-! ### Blocks of bytes -/

theorem byte_eq_of_absorb_eq {s : UInt64} {b c : UInt8} {u v : List UInt8}
    (hlen : u.length = v.length) (hu : u.length ≤ 3)
    (h : absorb s (b :: u) = absorb s (c :: v)) : b = c := by
  -- shorter blocks are filled up with zeros, which leaves equal states equal
  have hpad : absorb s (b :: (u ++ List.replicate (3 - u.length) 0)) =
      absorb s (c :: (v ++ List.replicate (3 - u.length) 0)) := by
    rw [← List.cons_append, absorb_append, h, ← absorb_append, List.cons_append]
  have hlen₁ : (u ++ List.replicate (3 - u.length) 0).length = 3 := by
    rw [List.length_append, List.length_replicate]
    omega
  have hlen₂ : (v ++ List.replicate (3 - u.length) 0).length = 3 := by
    rw [List.length_append, List.length_replicate]
    omega
  obtain ⟨b₁, b₂, b₃, hb⟩ := List.length_eq_three.1 hlen₁
  obtain ⟨c₁, c₂, c₃, hc⟩ := List.length_eq_three.1 hlen₂
  rw [hb, hc] at hpad
  exact byte_eq_of_four_steps hpad

theorem block_eq_of_absorb_eq {s : UInt64} {u v : List UInt8} (hlen : u.length = v.length)
    (hu : u.length ≤ 4) (h : absorb s u = absorb s v) : u = v := by
  induction u generalizing s v with
  | nil => exact (List.eq_nil_of_length_eq_zero hlen.symm).symm
  | cons b u ih =>
    cases v with
    | nil => cases hlen
    | cons c v =>
      have hlen' : u.length = v.length := Nat.succ.inj hlen
      have hu' : u.length ≤ 3 := Nat.le_of_succ_le_succ hu
      have hbc : b = c := byte_eq_of_absorb_eq hlen' hu' h
      subst hbc
      rw [ih hlen' (Nat.le_succ_of_le hu') h]

theorem hash_block_ne {block block' : List UInt8} (hlen : block.length = block'.length)
    (hshort : block.length ≤ 4) (hne : block ≠ block') (front back : List UInt8) :
    hash (front ++ block ++ back) ≠ hash (front ++ block' ++ back) := by
  intro h
  simp only [hash, absorb_append] at h
  exact hne (block_eq_of_absorb_eq hlen hshort (absorb_injective back h))

/-! ### Strings -/

theorem utf8_eq_flatMap (x : String) :
    x.toUTF8.data.toList = x.toList.flatMap String.utf8EncodeChar := by
  have hx : (String.ofList x.toList).toUTF8.data.toList =
      x.toList.flatMap String.utf8EncodeChar := by
    rw [String.toUTF8_eq_toByteArray, String.toByteArray_ofList, List.utf8Encode,
      List.data_toByteArray]
  rwa [String.ofList_toList] at hx

theorem utf8EncodeChar_injective {a b : Char}
    (h : String.utf8EncodeChar a = String.utf8EncodeChar b) : a = b := by
  have hbytes : (String.ofList [a]).toByteArray = (String.ofList [b]).toByteArray := by
    simp only [String.toByteArray_ofList, List.utf8Encode, List.flatMap_cons, List.flatMap_nil, h]
  have hlist := congrArg String.toList (String.toByteArray_inj.1 hbytes)
  simpa using hlist

theorem ofString_ne {x y : String} {front back : List Char} {a b : Char}
    (hx : x.toList = front ++ a :: back) (hy : y.toList = front ++ b :: back) (hne : a ≠ b)
    (hsize : x.utf8ByteSize = y.utf8ByteSize) : ofString x ≠ ofString y := by
  have hbytes {z : String} {c : Char} (hz : z.toList = front ++ c :: back) :
      z.toUTF8.data.toList = front.flatMap String.utf8EncodeChar ++ String.utf8EncodeChar c ++
        back.flatMap String.utf8EncodeChar := by
    rw [utf8_eq_flatMap, hz, List.flatMap_append, List.flatMap_cons, List.append_assoc]
  have hlen : (String.utf8EncodeChar a).length = (String.utf8EncodeChar b).length := by
    have hx' := congrArg List.length (hbytes hx)
    have hy' := congrArg List.length (hbytes hy)
    have hsizes : x.toUTF8.data.toList.length = y.toUTF8.data.toList.length := hsize
    simp only [List.length_append] at hx' hy'
    omega
  have hshort : (String.utf8EncodeChar a).length ≤ 4 := by
    rw [String.length_utf8EncodeChar]
    exact a.utf8Size_le_four
  rw [ofString, hbytes hx, ofString, hbytes hy]
  exact hash_block_ne hlen hshort (fun h => hne (utf8EncodeChar_injective h)) _ _

/-- Replacing at most four adjacent bytes by as many others changes the hash, whatever
stands before and after them. So string values that differ in exactly one character,
and have equally many bytes, have different hash keys. -/
theorem short_changes_never_collide :
    (∀ front block block' back : List UInt8, block.length = block'.length → block.length ≤ 4 →
      block ≠ block' → hash (front ++ block ++ back) ≠ hash (front ++ block' ++ back)) ∧
    ∀ (x y : String) (front back : List Char) (a b : Char) (s t : Stamp),
      x.toList = front ++ a :: back → y.toList = front ++ b :: back → a ≠ b →
      x.utf8ByteSize = y.utf8ByteSize →
      ∃ k l, (Value.str s x).hashKey = .ok k ∧ (Value.str t y).hashKey = .ok l ∧ k ≠ l := by
  constructor
  · intro front block block' back hlen hshort hne
    exact hash_block_ne hlen hshort hne front back
  · intro x y front back a b s t hx hy hne hsize
    refine ⟨_, _, rfl, rfl, fun hkeys => ?_⟩
    exact ofString_ne hx hy hne hsize (congrArg HashKey.word hkeys)

/-- Four bytes are replaced by others, and a character of two bytes by another one. -/
theorem near_strings_do_not_collide :
    hash ([7, 0] ++ [1, 2, 3, 4] ++ [9]) ≠ hash ([7, 0] ++ [4, 3, 2, 1] ++ [9]) ∧
      ∃ k l, (Value.str ⟨0⟩ "né").hashKey = .ok k ∧ (Value.str ⟨1⟩ "nà").hashKey = .ok l ∧
        k ≠ l := by
  obtain ⟨hblocks, hstrings⟩ := short_changes_never_collide
  refine ⟨hblocks _ _ _ _ rfl (by decide) (by decide), ?_⟩
  exact hstrings _ _ ['n'] [] 'é' 'à' _ _ rfl rfl (by decide) rfl

end Scriptlet.Fnv
