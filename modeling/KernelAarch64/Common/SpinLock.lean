import KernelAarch64.Core.Console

/-!
# Spinlocks (`common/spinlock.c`)

A lock knows the CPU that took it, and `acquire_spinlock` and `release_spinlock` panic when the CPU
that calls them has it already or has it not. A CPU is its number.
-/

namespace KernelAarch64.Common

/-- `SpinLock`. `locked` is what the CPUs compete for with an atomic exchange; `cpu` is written by
the owner only, after it has the lock and before it gives it back. -/
structure SpinLock where
  locked : Bool
  /-- `NULL` is `none`. -/
  cpu : Option Nat
  name : String
  deriving Repr, DecidableEq

/-- `init_spinlock` -/
def initSpinlock (name : String) : SpinLock := ⟨false, none, name⟩

namespace SpinLock

variable {l l' : SpinLock} {c d : Nat}

/-- `holding_spinlock`, called on the CPU `c`. -/
def Holding (l : SpinLock) (c : Nat) : Prop := l.locked = true ∧ l.cpu = some c

instance (l : SpinLock) (c : Nat) : Decidable (l.Holding c) :=
  inferInstanceAs (Decidable (_ ∧ _))

/-- The check of `acquire_spinlock`. -/
def acquireCheck (l : SpinLock) (c : Nat) : Except Stop Unit :=
  if l.Holding c then .error (.panic ("acquire: lock " ++ l.name ++ " already held\n")) else .ok ()

/-- The check of `release_spinlock`. -/
def releaseCheck (l : SpinLock) (c : Nat) : Except Stop Unit :=
  if l.Holding c then .ok () else .error (.panic ("release: lock " ++ l.name ++ " not held\n"))

/-- The lock after `try_acquire_spinlock` or `acquire_spinlock`, called on the CPU `c`, if they get
it. -/
def taken (l : SpinLock) (c : Nat) : SpinLock := { l with locked := true, cpu := some c }

/-- The lock after `release_spinlock`. -/
def released (l : SpinLock) : SpinLock := { l with locked := false, cpu := none }

theorem taken_holding : (l.taken c).Holding c := ⟨rfl, rfl⟩

theorem Holding.unique (hc : l.Holding c) (hd : l.Holding d) : c = d :=
  Option.some.inj (hc.2.symm.trans hd.2)

theorem acquireCheck_of (h : ¬l.Holding c) : l.acquireCheck c = .ok () := if_neg h

theorem releaseCheck_of (h : l.Holding c) : l.releaseCheck c = .ok () := if_pos h

end SpinLock

end KernelAarch64.Common
