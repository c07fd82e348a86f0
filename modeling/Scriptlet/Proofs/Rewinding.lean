import Mathlib.Logic.Equiv.Defs
import Mathlib.Logic.Function.Basic
import Scriptlet.Fnv

/-!
# Undoing the hash

The prime is odd, so it has an inverse modulo `2 ^ 64`, and a step of the hash can
be undone: each byte permutes the states. Absorbing a string of bytes composes the
permutations of its bytes and is a permutation itself. So there is always one state
to start from in order to reach a given one, and appending the same bytes to two
strings neither makes their hashes meet nor drives them apart.
-/
namespace Scriptlet.Fnv

/-- The inverse of the prime modulo `2 ^ 64`. -/
def inverse : UInt64 := 14886173955864302971

theorem prime_mul_inverse : prime * inverse = 1 := by decide

def unstep (state : UInt64) (byte : UInt8) : UInt64 := (state * inverse) ^^^ byte.toUInt64

theorem unstep_step (state : UInt64) (byte : UInt8) : unstep (step state byte) byte = state := by
  rw [unstep, step, UInt64.mul_assoc, prime_mul_inverse, UInt64.mul_one, UInt64.xor_assoc,
    UInt64.xor_self, UInt64.xor_zero]

theorem step_unstep (state : UInt64) (byte : UInt8) : step (unstep state byte) byte = state := by
  rw [step, unstep, UInt64.xor_assoc, UInt64.xor_self, UInt64.xor_zero, UInt64.mul_assoc,
    UInt64.mul_comm inverse, prime_mul_inverse, UInt64.mul_one]

/-- A step with the given byte, as a permutation of the states. -/
def turn (byte : UInt8) : Equiv.Perm UInt64 where
  toFun state := step state byte
  invFun state := unstep state byte
  left_inv state := unstep_step state byte
  right_inv state := step_unstep state byte

def turns : List UInt8 → Equiv.Perm UInt64
  | [] => Equiv.refl UInt64
  | byte :: bytes => (turn byte).trans (turns bytes)

theorem turns_apply (bytes : List UInt8) (state : UInt64) :
    turns bytes state = absorb state bytes := by
  induction bytes generalizing state with
  | nil => rfl
  | cons byte bytes ih => exact ih (step state byte)

theorem absorb_bijective (bytes : List UInt8) :
    Function.Bijective fun state => absorb state bytes := by
  have hturns : ⇑(turns bytes) = fun state => absorb state bytes := funext (turns_apply bytes)
  exact hturns ▸ (turns bytes).bijective

theorem absorb_injective {s t : UInt64} (bytes : List UInt8)
    (h : absorb s bytes = absorb t bytes) : s = t :=
  (absorb_bijective bytes).injective h

/-- A step permutes the states, whatever the byte. Two strings with the same bytes
appended to both have equal hashes exactly when they had equal hashes before. For every
string of bytes and every state there is exactly one state from which absorbing the
bytes leads to it. -/
theorem suffixes_keep_collisions :
    (∀ byte : UInt8, Function.Bijective fun state => step state byte) ∧
    (∀ x y suffix : List UInt8, hash (x ++ suffix) = hash (y ++ suffix) ↔ hash x = hash y) ∧
    ∀ (bytes : List UInt8) (target : UInt64), ∃! start, absorb start bytes = target := by
  refine ⟨fun byte => (turn byte).bijective, fun x y suffix => ?_, fun bytes target => ?_⟩
  · rw [hash, absorb_append, hash, absorb_append]
    exact (absorb_bijective suffix).injective.eq_iff
  · exact (absorb_bijective bytes).existsUnique target

end Scriptlet.Fnv
