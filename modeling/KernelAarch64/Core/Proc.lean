/-!
# Sleep and wakeup (`core/proc.c`)

The two fields of a `proc` by which a process gives up its CPU until another one makes it runnable.
`chan` keeps its value when the process is woken.
-/

namespace KernelAarch64.Core

/-- `enum procstate`, in the order of the source. -/
inductive ProcState where
  | unused
  | embryo
  | sleeping
  | runnable
  | running
  | zombie
  deriving Repr, DecidableEq

/-- `state` and `chan` of a `proc`, all that `sleep` and `wakeup` look at. They are written one
after the other, without a lock. -/
structure Sleeper (χ : Type) where
  state : ProcState
  chan : Option χ
  deriving Repr, DecidableEq

namespace Sleeper

variable {χ : Type} [DecidableEq χ] {p : Sleeper χ} {c : χ}

/-- What `wakeup(chan)` does to a process. -/
def wakeup (p : Sleeper χ) (c : χ) : Sleeper χ :=
  if p.state = .sleeping ∧ p.chan = some c then { p with state := .runnable } else p

@[simp] theorem wakeup_chan : (p.wakeup c).chan = p.chan := by
  unfold wakeup
  split <;> rfl

/-- A process that sleeps after `wakeup` slept before it, on something else. -/
theorem wakeup_sleeping (h : (p.wakeup c).state = .sleeping) :
    p.state = .sleeping ∧ p.chan ≠ some c := by
  unfold wakeup at h
  split at h
  · cases h
  · next hmiss => exact ⟨h, fun hchan => hmiss ⟨h, hchan⟩⟩

theorem wakeup_of_ne (h : ¬(p.state = .sleeping ∧ p.chan = some c)) : p.wakeup c = p := if_neg h

end Sleeper

end KernelAarch64.Core
