import Mathlib.Logic.Function.Basic

/-!
# Tokens

A token is with at most one process at a time. Whether a process has it can be read off the state of
the process; where it is now is a value of its own, so that two processes that have it are the same.
-/

namespace KernelAarch64.Lib

variable {π U : Type*}

/-- The process that `has` the token is `t`. -/
def Token (has : π → Prop) (t : Option π) : Prop := ∀ p, t = some p ↔ has p

namespace Token

variable {P : U → Prop} {user : π → U} {t : Option π} {p q : π} {u : U}

theorem unique {has : π → Prop} (h : Token has t) (hp : has p) (hq : has q) : p = q :=
  Option.some.inj (((h p).mpr hp).symm.trans ((h q).mpr hq))

/-- Nobody has a token that is nowhere. -/
theorem not_has {has : π → Prop} (h : Token has none) (p : π) : ¬has p :=
  fun hp => nomatch (h p).mpr hp

variable [DecidableEq π]

/-- A step of `p` that neither takes nor gives up the token. -/
theorem keep (h : Token (fun q => P (user q)) t) (hu : P u ↔ P (user p)) :
    Token (fun q => P (Function.update user p u q)) t := by
  intro q
  show t = some q ↔ P (Function.update user p u q)
  by_cases hq : q = p
  · subst hq
    rw [Function.update_self, hu]
    exact h q
  · rw [Function.update_of_ne hq]
    exact h q

/-- A step of `p` that takes the token. -/
theorem take (h : Token (fun q => P (user q)) none) (hu : P u) :
    Token (fun q => P (Function.update user p u q)) (some p) := by
  intro q
  show some p = some q ↔ P (Function.update user p u q)
  by_cases hq : q = p
  · subst hq
    rw [Function.update_self]
    exact ⟨fun _ => hu, fun _ => rfl⟩
  · rw [Function.update_of_ne hq]
    exact ⟨fun hqp => absurd (Option.some.inj hqp).symm hq, fun hhas => absurd hhas (h.not_has q)⟩

/-- A step of `p` that gives the token up. -/
theorem drop (h : Token (fun q => P (user q)) t) (hp : P (user p)) (hu : ¬P u) :
    Token (fun q => P (Function.update user p u q)) none := by
  intro q
  show none = some q ↔ P (Function.update user p u q)
  by_cases hq : q = p
  · subst hq
    rw [Function.update_self]
    exact ⟨fun hnone => (nomatch hnone), fun hhas => absurd hhas hu⟩
  · rw [Function.update_of_ne hq]
    exact ⟨fun hnone => (nomatch hnone), fun hhas => absurd (h.unique hhas hp) hq⟩

end Token

end KernelAarch64.Lib
