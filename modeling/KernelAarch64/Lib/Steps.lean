import Mathlib.Logic.Relation

/-!
# Runs of a system

A system takes steps with labels. Which label may be used in which state is a rule of its own, so
that the runs of careful and of careless users are runs of the same system.
-/

namespace KernelAarch64.Lib

variable {S A ε : Type*}

/-- From `s` to `t` by steps that `ok` allows. -/
def Steps (step : S → A → S → Prop) (ok : S → A → Prop) : S → S → Prop :=
  Relation.ReflTransGen fun s t => ∃ a, ok s a ∧ step s a t

namespace Steps

variable {step : S → A → S → Prop} {ok ok' : S → A → Prop} {s t u : S} {a : A}

theorem refl (s : S) : Steps step ok s s := Relation.ReflTransGen.refl

theorem tail (h : Steps step ok s t) (hok : ok t a) (hstep : step t a u) : Steps step ok s u :=
  Relation.ReflTransGen.tail h ⟨a, hok, hstep⟩

theorem head (hok : ok s a) (hstep : step s a t) (h : Steps step ok t u) : Steps step ok s u :=
  Relation.ReflTransGen.head ⟨a, hok, hstep⟩ h

theorem trans (h₁ : Steps step ok s t) (h₂ : Steps step ok t u) : Steps step ok s u :=
  Relation.ReflTransGen.trans h₁ h₂

theorem mono (h : Steps step ok s t) (himp : ∀ u a, ok u a → ok' u a) : Steps step ok' s t := by
  refine Relation.ReflTransGen.mono ?_ _ _ h
  intro u v huv
  obtain ⟨a, hok, hstep⟩ := huv
  exact ⟨a, himp u a hok, hstep⟩

/-- What holds at the start of a run and is kept by each of its steps holds at its end. -/
theorem invariant {I : S → Prop} (h : Steps step ok s t) (hs : I s)
    (hstep : ∀ u v a, I u → ok u a → step u a v → I v) : I t := by
  induction h with
  | refl => exact hs
  | tail _ hlast ih =>
    obtain ⟨a, hok, hrun⟩ := hlast
    exact hstep _ _ a ih hok hrun

end Steps

/-- The steps of `f` that return. -/
def StepsOf (f : S → A → Except ε S) (ok : S → A → Prop) : S → S → Prop :=
  Steps (fun s a t => f s a = .ok t) ok

/-- Step after step, each of them allowed by `ok`. The decidable form of `StepsOf`: a concrete run
is checked by evaluating this. -/
def runList (f : S → A → Except ε S) (ok : S → A → Prop) [∀ s a, Decidable (ok s a)] :
    S → List A → Option S
  | s, [] => some s
  | s, a :: as =>
    if ok s a then
      match f s a with
      | .ok t => runList f ok t as
      | .error _ => none
    else none

theorem StepsOf.of_runList {f : S → A → Except ε S} {ok : S → A → Prop}
    [∀ s a, Decidable (ok s a)] {as : List A} {s t : S} (h : runList f ok s as = some t) :
    StepsOf f ok s t := by
  induction as generalizing s with
  | nil =>
    cases h
    exact Steps.refl _
  | cons a as ih =>
    rw [runList] at h
    split at h
    · next hok =>
      split at h
      · next u hstep => exact Steps.head hok hstep (ih h)
      · cases h
    · cases h

end KernelAarch64.Lib
