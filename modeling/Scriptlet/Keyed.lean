/-!
# Lists with one element a key

Scopes, hashes and the name tables of a session are lists whose elements carry
a key. Putting an element replaces the one with its key where it stands, or
appends when there is none, so no key occurs twice.
-/
namespace Scriptlet

class Keyed (α : Type) (κ : outParam Type) where
  key : α → κ

namespace Keyed

variable {α κ : Type} [Keyed α κ]

def keys (xs : List α) : List κ := xs.map key

@[simp]
theorem keys_nil : keys ([] : List α) = [] := rfl

@[simp]
theorem keys_cons (x : α) (xs : List α) : keys (x :: xs) = key x :: keys xs := rfl

variable [DecidableEq κ]

def find? (k : κ) : List α → Option α
  | [] => none
  | x :: xs => if key x = k then some x else find? k xs

def put (x : α) : List α → List α
  | [] => [x]
  | y :: ys => if key y = key x then x :: ys else y :: put x ys

def erase (k : κ) (xs : List α) : List α := xs.filter fun x => key x ≠ k

@[simp]
theorem find?_nil (k : κ) : find? k ([] : List α) = none := rfl

theorem find?_cons (k : κ) (x : α) (xs : List α) :
    find? k (x :: xs) = if key x = k then some x else find? k xs := rfl

@[simp]
theorem find?_put_self (x : α) (xs : List α) : find? (key x) (put x xs) = some x := by
  induction xs with
  | nil => simp [put, find?]
  | cons y ys ih => by_cases h : key y = key x <;> simp [put, find?, h, ih]

theorem find?_put_of_ne {x : α} {k : κ} (h : key x ≠ k) (xs : List α) :
    find? k (put x xs) = find? k xs := by
  induction xs with
  | nil => simp [put, find?, h]
  | cons y ys ih =>
    by_cases hy : key y = key x
    · have hk : key y ≠ k := hy ▸ h
      simp [put, find?, hy, h]
    · simp [put, find?, hy, ih]

theorem find?_put (x : α) (k : κ) (xs : List α) :
    find? k (put x xs) = if key x = k then some x else find? k xs := by
  by_cases h : key x = k
  · subst h; simp
  · simp [h, find?_put_of_ne h]

theorem key_of_find?_eq_some {k : κ} {x : α} {xs : List α} (h : find? k xs = some x) :
    key x = k := by
  induction xs with
  | nil => simp at h
  | cons y ys ih =>
    by_cases hy : key y = k
    · simp only [find?_cons, hy, if_true, Option.some.injEq] at h
      exact h ▸ hy
    · simp only [find?_cons, hy, if_false] at h
      exact ih h

theorem mem_of_find?_eq_some {k : κ} {x : α} {xs : List α} (h : find? k xs = some x) :
    x ∈ xs := by
  induction xs with
  | nil => simp at h
  | cons y ys ih =>
    by_cases hy : key y = k
    · simp only [find?_cons, hy, if_true, Option.some.injEq] at h
      exact h ▸ List.mem_cons_self
    · simp only [find?_cons, hy, if_false] at h
      exact List.mem_cons_of_mem _ (ih h)

theorem keys_put (x : α) (xs : List α) :
    keys (put x xs) = if key x ∈ keys xs then keys xs else keys xs ++ [key x] := by
  induction xs with
  | nil => simp [put]
  | cons y ys ih =>
    by_cases hy : key y = key x
    · simp [put, hy]
    · have hx : key x ≠ key y := fun h => hy h.symm
      by_cases h : key x ∈ keys ys <;> simp [put, hy, hx, h, ih]

theorem nodup_keys_put {xs : List α} (h : (keys xs).Nodup) (x : α) : (keys (put x xs)).Nodup := by
  rw [keys_put]
  split
  · exact h
  · next hx =>
    refine List.nodup_append.2 ⟨h, by simp, fun a ha b hb e => hx ?_⟩
    rw [List.mem_singleton] at hb
    exact hb ▸ e ▸ ha

end Keyed

end Scriptlet
