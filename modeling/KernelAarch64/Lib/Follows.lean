import Mathlib.Tactic.TypeStar

/-!
# Programs that do what others do

Two programs that may fail run side by side. The first one follows the second one: it returns where
the second one returns, with results that are related, and fails where the second one fails, with
the same error. It may also give up early, with an error of its own, but only if `P` holds. A
program is followed if its parts are followed one after the other (`Follows.bind`), so a relation of
the states that single calls keep is kept by every program built from these calls. -/

namespace KernelAarch64.Lib

universe v w

variable {ε : Type*} {α α' : Type v} {β β' : Type w}

/-- The first program does what the second one does, or gives up with the error `stop` while `P`
holds. `R` relates what they return. -/
inductive Follows (stop : ε) (P : Prop) (R : α → β → Prop) : Except ε α → Except ε β → Prop
  | ok {a b} (h : R a b) : Follows stop P R (.ok a) (.ok b)
  | error (e) : Follows stop P R (.error e) (.error e)
  | stop (h : P) (y) : Follows stop P R (.error stop) y

/-- Equal first parts and related second parts. -/
def Beside {γ : Type*} (R : α → β → Prop) (r : γ × α) (r' : γ × β) : Prop :=
  r.1 = r'.1 ∧ R r.2 r'.2

namespace Follows

variable {stop : ε} {P P' : Prop} {R R' : α → β → Prop} {S : α' → β' → Prop} {x : Except ε α}
  {y : Except ε β} {a : α} {b : β}

theorem refl (stop : ε) (P : Prop) (x : Except ε α) : Follows stop P Eq x x := by
  cases x with
  | ok a => exact .ok rfl
  | error e => exact .error e

/-- What the second program returns can be used for the relation of the results. -/
theorem mono_of (h : Follows stop P R x y) (hP : P → P')
    (hR : ∀ a b, y = .ok b → R a b → R' a b) : Follows stop P' R' x y := by
  cases h with
  | ok h => exact .ok (hR _ _ rfl h)
  | error e => exact .error e
  | stop h => exact .stop (hP h) _

theorem mono (h : Follows stop P R x y) (hP : P → P') (hR : ∀ a b, R a b → R' a b) :
    Follows stop P' R' x y := h.mono_of hP fun a b _ => hR a b

/-- Programs whose parts follow one another. What comes after is compared only where the second
program goes on. -/
theorem bind_of (h : Follows stop P R x y) {f : α → Except ε α'} {g : β → Except ε β'}
    (hf : ∀ a b, y = .ok b → R a b → Follows stop P S (f a) (g b)) :
    Follows stop P S (x >>= f) (y >>= g) := by
  cases h with
  | ok h => exact hf _ _ rfl h
  | error e => exact .error e
  | stop h => exact .stop h _

theorem bind (h : Follows stop P R x y) {f : α → Except ε α'} {g : β → Except ε β'}
    (hf : ∀ a b, R a b → Follows stop P S (f a) (g b)) : Follows stop P S (x >>= f) (y >>= g) :=
  h.bind_of fun a b _ hR => hf a b hR

/-- A loop whose turns follow those of another one. -/
theorem foldlM {γ : Type*} {l : List γ} {f : α → γ → Except ε α} {g : β → γ → Except ε β}
    (hR : R a b) (hf : ∀ x ∈ l, ∀ a b, R a b → Follows stop P R (f a x) (g b x)) :
    Follows stop P R (l.foldlM f a) (l.foldlM g b) := by
  induction l generalizing a b with
  | nil => exact .ok hR
  | cons x l ih =>
    rw [List.foldlM_cons, List.foldlM_cons]
    refine (hf x List.mem_cons_self a b hR).bind fun a' b' hR' => ?_
    exact ih hR' fun y hy => hf y (List.mem_cons_of_mem x hy)

/-- What the first program returns is what the second one returns. -/
theorem of_ok (h : Follows stop P R (.ok a) y) : ∃ b, y = .ok b ∧ R a b := by
  cases h with
  | ok h => exact ⟨_, rfl, h⟩

/-- Without a reason to give up, the first program returns where the second one does. -/
theorem ok_of_not (h : Follows stop P R x (.ok b)) (hP : ¬ P) : ∃ a, x = .ok a ∧ R a b := by
  cases h with
  | ok h => exact ⟨_, rfl, h⟩
  | stop h => exact absurd h hP

/-- A program that does not give up needs no reason to. -/
theorem of_ne (h : Follows stop P R x y) (hx : x ≠ .error stop) : Follows stop False R x y := by
  cases h with
  | ok h => exact .ok h
  | error e => exact .error e
  | stop => exact absurd rfl hx

/-- A program that follows another one to the same results and does not give up is equal to it. -/
theorem eq_of_ne {y : Except ε α} (h : Follows stop P Eq x y) (hx : x ≠ .error stop) : x = y := by
  cases h with
  | ok h => rw [h]
  | error => rfl
  | stop => exact absurd rfl hx

end Follows

end KernelAarch64.Lib
