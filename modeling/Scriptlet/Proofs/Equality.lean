import Scriptlet.Proofs.Commands

/-!
# Equality in a session

A session holds the values of its variables, the values bound in its scopes, and
all that lies in them. At the end of every run equality is an equivalence on
what the session holds. A stamp stands for one payload throughout the run, so
equality decides whether two values are alike in their contents.
-/
namespace Scriptlet.Session

/-- The value can be had from a variable or from a binding of some scope. -/
def Holds (s : Session) (v : Value) : Prop :=
  ∃ root, v.Within root ∧
    ((∃ name, s.var? name = some root) ∨
      ∃ e name, s.store.scopes.getLocal? e name = some root)

theorem Follows.knows {s : Session} {h : Host} (hs : s.Follows h) {v : Value} (hv : s.Holds v) :
    h.Knows v := by
  obtain ⟨root, hin, hroot⟩ := hv
  have hknown : h.Knows root := by
    rcases hroot with ⟨name, hvar⟩ | ⟨e, name, hbound⟩
    · obtain ⟨b, hb, rfl⟩ := exists_mem_of_find? hvar
      exact hs.vars b hb
    · rw [hs.store] at hbound
      exact hs.sound.bound e name root hbound
  exact hin.closed (fun hw hv => .part hw hv) hknown

/-- After any run of commands, equality is reflexive, symmetric and transitive
on the values that the session holds. -/
theorem same_equivalence_on_held (cs : List Command) :
    Equivalence fun v w : {v : Value // (empty.run cs).2.Holds v} => v.1.same w.1 = true := by
  obtain ⟨h, -, hs⟩ := follows_start.run cs
  let toKnown (v : {v : Value // (empty.run cs).2.Holds v}) : {v : Value // h.Knows v} :=
    ⟨v.1, hs.knows v.2⟩
  exact hs.sound.coherent.equivalence_same.comap toKnown

def pantry : List Command :=
  [.newScope "e", .bind "f" (.function ["x"] [] (some "e")),
   .bind "q" (.quote (.expr (.ident "x"))),
   -- the same pairs in different order
   .bind "a" (.hash [(.int 1, .var "f"), (.int 2, .var "q")]),
   .bind "b" (.hash [(.int 2, .var "q"), (.int 1, .var "f")]),
   -- the same keys with something else stored under them
   .set "e" "c" (.keyedHash [⟨⟨.int, 1⟩, .null, .var "f"⟩, ⟨⟨.int, 2⟩, .null, .var "q"⟩])]

theorem pantry_hashes_are_same :
    let f : Value := .function ⟨⟨0⟩, ["x"], [], ⟨0⟩⟩
    let q : Value := .quote ⟨1⟩ (.expr (.ident "x"))
    let a : Value := .hash ⟨2⟩ [⟨⟨.int, 1⟩, .int 1, f⟩, ⟨⟨.int, 2⟩, .int 2, q⟩]
    let b : Value := .hash ⟨3⟩ [⟨⟨.int, 2⟩, .int 2, q⟩, ⟨⟨.int, 1⟩, .int 1, f⟩]
    let c : Value := .hash ⟨4⟩ [⟨⟨.int, 1⟩, .null, f⟩, ⟨⟨.int, 2⟩, .null, q⟩]
    let s := (empty.run pantry).2
    s.Holds f ∧ s.Holds q ∧ s.Holds a ∧ s.Holds b ∧ s.Holds c ∧
      f.same f = true ∧ q.same q = true ∧ a.same b = true ∧ b.same c = true ∧
      b.same a = true ∧ a.same c = true := by
  intro f q a b c s
  have hf : s.Holds f := ⟨_, .self _, Or.inl ⟨"f", rfl⟩⟩
  have hq : s.Holds q := ⟨_, .self _, Or.inl ⟨"q", rfl⟩⟩
  have ha : s.Holds a := ⟨_, .self _, Or.inl ⟨"a", rfl⟩⟩
  have hb : s.Holds b := ⟨_, .self _, Or.inl ⟨"b", rfl⟩⟩
  have hc : s.Holds c := ⟨_, .self _, Or.inr ⟨⟨0⟩, "c", rfl⟩⟩
  have hab : a.same b = true := by decide
  have hbc : b.same c = true := by decide
  have heq := same_equivalence_on_held pantry
  exact ⟨hf, hq, ha, hb, hc, heq.refl ⟨f, hf⟩, heq.refl ⟨q, hq⟩, hab, hbc,
    heq.symm (x := ⟨a, ha⟩) (y := ⟨b, hb⟩) hab,
    heq.trans (x := ⟨a, ha⟩) (y := ⟨b, hb⟩) (z := ⟨c, hc⟩) hab hbc⟩

/-- Of a value held after some commands and one held then or after more of
them: with one stamp they have one payload, and they are equal exactly when
they are alike. -/
theorem same_compares_contents (cs more : List Command) :
    let s := (empty.run cs).2
    let s' := (s.run more).2
    (∀ v w stamp p q, s.Holds v → s'.Holds w →
      v.cell? = some (stamp, p) → w.cell? = some (stamp, q) → p = q) ∧
    ∀ v w, s.Holds v → s'.Holds w → v.same w = v.alike w := by
  obtain ⟨h, -, hs⟩ := follows_start.run cs
  obtain ⟨h', hl, hs'⟩ := hs.run more
  have hc : Coherent h'.Knows := hs'.sound.coherent
  constructor
  · intro v w stamp p q hv hw
    exact hc.cell (hl.knows (hs.knows hv)) (hs'.knows hw)
  · intro v w hv hw
    exact hc.same_eq_alike (hl.knows (hs.knows hv)) (hs'.knows hw)

def wrapped : List Command := [.bind "a" (.array [.str "x"]), .bind "b" (.ret (.var "a"))]

theorem wrapped_compares_contents :
    let a := Value.array ⟨1⟩ [.str ⟨0⟩ "x"]
    let s := (empty.run wrapped).2
    let s' := (s.run [.bind "c" (.ret (.var "a"))]).2
    s.Holds (.ret ⟨2⟩ a) ∧ s'.Holds (.ret ⟨3⟩ a) ∧
      (Value.ret ⟨2⟩ a).same (.ret ⟨3⟩ a) = (Value.ret ⟨2⟩ a).alike (.ret ⟨3⟩ a) := by
  intro a s s'
  have hb : s.Holds (.ret ⟨2⟩ a) := ⟨_, .self _, Or.inl ⟨"b", rfl⟩⟩
  have hc : s'.Holds (.ret ⟨3⟩ a) := ⟨_, .self _, Or.inl ⟨"c", rfl⟩⟩
  exact ⟨hb, hc, (same_compares_contents wrapped _).2 _ _ hb hc⟩

end Scriptlet.Session
