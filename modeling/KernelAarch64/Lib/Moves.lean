import Mathlib.Data.List.Pairwise
import Mathlib.Logic.Function.Basic

/-!
# Moving cells

A memory is copied cell by cell, each move from one address to another. If no move overwrites what a
later one reads or writes, every cell gets what was at its source in the beginning.
-/

namespace KernelAarch64.Lib

variable {α β : Type*} [DecidableEq α] {m : α → β} {p : α × α} {ps : List (α × α)} {a : α}

/-- The memory after moves, each a destination and a source. -/
def moveAll (m : α → β) (ps : List (α × α)) : α → β :=
  ps.foldl (fun m p => Function.update m p.1 (m p.2)) m

/-- No move overwrites what a later one needs. -/
def Unspoilt (ps : List (α × α)) : Prop := ps.Pairwise fun p q => p.1 ≠ q.1 ∧ p.1 ≠ q.2

theorem moveAll_cons (m : α → β) (p : α × α) (ps : List (α × α)) :
    moveAll m (p :: ps) = moveAll (Function.update m p.1 (m p.2)) ps := rfl

/-- An address that is no destination keeps its content. -/
theorem moveAll_of_ne (h : ∀ p ∈ ps, a ≠ p.1) : moveAll m ps a = m a := by
  induction ps generalizing m with
  | nil => rfl
  | cons q ps ih =>
    rw [moveAll_cons, ih fun p hp => h p (List.mem_cons_of_mem q hp)]
    exact Function.update_of_ne (h q List.mem_cons_self) _ _

/-- A destination gets what its source had. -/
theorem moveAll_of_mem (hps : Unspoilt ps) (hp : p ∈ ps) : moveAll m ps p.1 = m p.2 := by
  induction ps generalizing m with
  | nil => cases hp
  | cons q ps ih =>
    obtain ⟨hq, hrest⟩ := List.pairwise_cons.mp hps
    rw [moveAll_cons]
    rcases List.mem_cons.mp hp with rfl | hp
    · rw [moveAll_of_ne fun r hr => (hq r hr).1, Function.update_self]
    · rw [ih hrest hp, Function.update_of_ne (hq p hp).2.symm]

end KernelAarch64.Lib
