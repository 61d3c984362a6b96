import KernelAarch64.Common.SpinLock
import KernelAarch64.Core.Proc
import KernelAarch64.Lib.Steps
import KernelAarch64.Lib.Token
import Mathlib.Data.Fintype.Basic

/-!
# Sleep locks (`core/sleeplock.c`)

Processes on any CPUs call `acquire_sleeplock` and `release_sleeplock` on one lock, and each access
to shared data is a step. The kernel is not interrupted: a process that is inside one of the two
functions stays on its CPU until it calls `sched`.

`sleep(lock, &lock->lock)` should give the inner lock up and take it back. It takes it, though the
caller has it.

`Inv` says where `lock->lock` is and who has `lock->locked`, and that a CPU runs one process. Most
steps change one process and nothing else (`Inv.goto`, `Inv.stay`), and those that write to the lock
have a lemma of their own each. That nothing goes wrong without contention is a second invariant
(`NoSleep`): no process is on its way into `sleep`, and there is no other panic (`Inv.no_panic`).
That a process that finds the lock taken does go wrong is a run (`Inv.panic_of_contended`).
`sleeplock_iff_uncontended` has both.
-/

namespace KernelAarch64.Core

open KernelAarch64.Lib KernelAarch64.Common

/-- The calls of `acquire_spinlock` and `release_spinlock`. They are the same code at three places,
so the program counter says which one it is. -/
inductive LockSite where
  /-- In `acquire_sleeplock`. -/
  | enter
  /-- In `release_sleeplock`. -/
  | leave
  /-- In `sleep`. -/
  | sleep
  deriving Repr, DecidableEq

/-- Where a process is. `acquire_spinlock` and `release_spinlock` have three places each, one for
every access to the inner lock. -/
inductive LockPc where
  | outside
  /-- `acquire_spinlock` is about to look whether the lock is held, ... -/
  | acquire (site : LockSite)
  /-- ... to test and set `locked`, ... -/
  | spin (site : LockSite)
  /-- ... and to store the CPU. -/
  | store (site : LockSite)
  /-- At `while (lock->locked)`. -/
  | test
  /-- At `p->state = SLEEPING`. -/
  | setState
  /-- At `p->chan = chan`. -/
  | setChan
  /-- At `sched()` in `sleep`. -/
  | sched
  /-- Off its CPU, in `sleep`. -/
  | asleep
  /-- At `lock->locked = true`. -/
  | setLocked
  /-- `release_spinlock` is about to look whether the lock is held, ... -/
  | release (site : LockSite)
  /-- ... to clear `cpu`, ... -/
  | clearCpu (site : LockSite)
  /-- ... and to clear `locked`. -/
  | clear (site : LockSite)
  /-- `acquire_sleeplock` has returned. -/
  | holding
  /-- At `lock->locked = false`. -/
  | clearLocked
  /-- At `wakeup(lock)`. -/
  | wakeup
  deriving Repr, DecidableEq

/-- Where `acquire_spinlock` returns to. In `sleep` that would be `sched`, but it does not return
there. -/
def LockSite.acquired : LockSite → LockPc
  | .enter => .test
  | .leave => .clearLocked
  | .sleep => .sched

/-- Where `release_spinlock` returns to: to `wakeup` in `release_sleeplock`, and to the end of
`acquire_sleeplock`. -/
def LockSite.released : LockSite → LockPc
  | .leave => .wakeup
  | _ => .holding

/-- A process that uses the lock, with the CPU it runs on. A process that is asleep or has been
taken off has none. -/
structure LockUser where
  proc : Sleeper Unit
  pc : LockPc
  cpu : Option Nat
  deriving Repr, DecidableEq

/-- A `SleepLock` and the processes `π`. `owner` and `holder` are ghost state: they say who took the
two locks, and the code itself does not look at them. -/
structure LockSystem (π : Type) where
  /-- `lock->lock` -/
  lock : SpinLock
  /-- `lock->locked` -/
  locked : Bool
  user : π → LockUser
  /-- The process that took `lock->lock`. -/
  owner : Option π
  /-- The process that set `lock->locked`. -/
  holder : Option π

/-- What happens next: a call of one of the two functions, a step of a process inside, or a change
of the CPU. -/
inductive LockStep (π : Type) where
  /-- A call of `acquire_sleeplock`. -/
  | call (p : π)
  /-- A call of `release_sleeplock`. -/
  | finish (p : π)
  /-- The process goes on. -/
  | run (p : π)
  /-- A process that is in neither function gives up its CPU. -/
  | off (p : π)
  /-- A CPU runs the process. -/
  | on (p : π) (cpu : Nat)
  deriving Repr, DecidableEq

namespace LockSystem

variable {π : Type} [DecidableEq π]

/-- `init_sleeplock`; every process is somewhere else. -/
def initSleeplock (name : String) : LockSystem π :=
  ⟨initSpinlock name, false, fun _ => ⟨⟨.running, none⟩, .outside, none⟩, none, none⟩

def setUser (s : LockSystem π) (p : π) (u : LockUser) : LockSystem π :=
  { s with user := Function.update s.user p u }

def setPc (s : LockSystem π) (p : π) (pc : LockPc) : LockSystem π :=
  s.setUser p { s.user p with pc := pc }

/-- One step of a process on the CPU `c`: one access to shared data. To wait is to stay where it is
and try again. -/
def runOn (s : LockSystem π) (p : π) (c : Nat) : Except Stop (LockSystem π) :=
  match (s.user p).pc with
  | .acquire site => do
    s.lock.acquireCheck c
    return s.setPc p (.spin site)
  | .spin site =>
    if s.lock.locked then .error .wait
    else .ok ({ s with lock := { s.lock with locked := true }, owner := some p }.setPc p
      (.store site))
  | .store site =>
    .ok ({ s with lock := { s.lock with cpu := some c } }.setPc p site.acquired)
  | .test => .ok (s.setPc p (if s.locked then .setState else .setLocked))
  | .setState =>
    .ok (s.setUser p { s.user p with
      proc := { (s.user p).proc with state := .sleeping }, pc := .setChan })
  | .setChan =>
    .ok (s.setUser p { s.user p with
      proc := { (s.user p).proc with chan := some () }, pc := .acquire .sleep })
  | .sched =>
    .ok (s.setUser p { s.user p with pc := .asleep, cpu := none })
  | .setLocked => .ok ({ s with locked := true, holder := some p }.setPc p (.release .enter))
  | .release site => do
    s.lock.releaseCheck c
    return s.setPc p (.clearCpu site)
  | .clearCpu site => .ok ({ s with lock := { s.lock with cpu := none } }.setPc p (.clear site))
  | .clear site =>
    .ok ({ s with lock := { s.lock with locked := false }, owner := none }.setPc p site.released)
  | .clearLocked => .ok ({ s with locked := false, holder := none }.setPc p (.release .leave))
  | .wakeup =>
    .ok ({ s with user := fun q => { s.user q with proc := (s.user q).proc.wakeup () } }.setPc p
      .outside)
  | .outside | .holding | .asleep => .error .wait

/-- One step. A process without a CPU does nothing, and inside of the two functions a process keeps
its CPU. -/
def step (s : LockSystem π) : LockStep π → Except Stop (LockSystem π)
  | .call p =>
    match (s.user p).pc, (s.user p).cpu with
    | .outside, some _ => .ok (s.setPc p (.acquire .enter))
    | _, _ => .error .wait
  | .finish p =>
    match (s.user p).pc, (s.user p).cpu with
    | .holding, some _ => .ok (s.setPc p (.acquire .leave))
    | _, _ => .error .wait
  | .run p =>
    match (s.user p).cpu with
    | some c => s.runOn p c
    | none => .error .wait
  | .off p =>
    match (s.user p).pc with
    | .outside | .holding =>
      .ok (s.setUser p { s.user p with cpu := none })
    | _ => .error .wait
  | .on p c =>
    match (s.user p).pc, (s.user p).cpu, (s.user p).proc.state with
    | .asleep, none, .runnable =>
      .ok (s.setUser p ⟨{ (s.user p).proc with state := .running }, .test, some c⟩)
    | .outside, none, _ | .holding, none, _ =>
      .ok (s.setUser p { s.user p with cpu := some c })
    | _, _, _ => .error .wait

/-- A CPU runs one process at a time. Nothing else is asked of the steps, so that they come in any
order. -/
def Allowed (s : LockSystem π) : LockStep π → Prop
  | .on _ c => ∀ q, (s.user q).cpu ≠ some c
  | _ => True

instance [Fintype π] (s : LockSystem π) (a : LockStep π) : Decidable (s.Allowed a) := by
  induction a using LockStep.casesOn <;> dsimp only [Allowed] <;> infer_instance

/-- A process looks at `lock->locked` only while it is not set, so that no process comes to call
`sleep`. -/
def Uncontended (s : LockSystem π) : LockStep π → Prop
  | .run p => (s.user p).pc = .test → s.locked = false
  | _ => True

instance (s : LockSystem π) (a : LockStep π) : Decidable (s.Uncontended a) := by
  induction a using LockStep.casesOn <;> dsimp only [Uncontended] <;> infer_instance

/-- The states that the processes bring about with steps allowed by `ok` as well. -/
def Reaches (ok : LockSystem π → LockStep π → Prop) (name : String) : LockSystem π → Prop :=
  StepsOf step (fun s a => s.Allowed a ∧ ok s a) (initSleeplock name)

end LockSystem

/-! ## The invariant

The program counters are grouped by what a process has: the inner lock, its CPU in the inner lock,
or `lock->locked`. The invariant is about these groups, so a new statement of the code is a new line
in them. -/

/-- `lock->lock` is taken, from the exchange that got it to the store that gives it back. -/
def LockPc.owns : LockPc → Bool
  | .store _ | .test | .setState | .setChan | .setLocked | .clearLocked => true
  | .acquire site => site = .sleep
  | .release _ | .clearCpu _ | .clear _ => true
  | _ => false

/-- `lock->lock` has the CPU of the process, which is a shorter time: the CPU is stored after the
lock is taken and cleared before it is given back. -/
def LockPc.stored : LockPc → Bool
  | .test | .setState | .setChan | .setLocked | .clearLocked => true
  | .acquire site => site = .sleep
  | .release _ | .clearCpu _ => true
  | _ => false

/-- `lock->locked` is set by this process: from the store in `acquire_sleeplock` to the one in
`release_sleeplock`. -/
def LockPc.holds : LockPc → Bool
  | .release site | .clearCpu site | .clear site => site = .enter
  | .acquire site | .spin site | .store site => site = .leave
  | .holding | .clearLocked => true
  | _ => false

/-- A process can get here. None gets through the `acquire_spinlock` of `sleep`, because it holds
that lock already. -/
def LockPc.live : LockPc → Bool
  | .spin site | .store site | .release site | .clearCpu site | .clear site => site ≠ .sleep
  | .sched | .asleep => false
  | _ => true

/-- Whoever has stored its CPU has taken the lock. -/
theorem LockPc.owns_of_stored {pc : LockPc} (h : pc.stored = true) : pc.owns = true := by
  cases pc <;> simp_all [LockPc.stored, LockPc.owns]

/-- A process on its way into `sleep`: it has found the lock taken, and will panic. -/
def LockPc.toSleep : LockPc → Bool
  | .setState | .setChan => true
  | .acquire site => site = .sleep
  | _ => false

/-- The process has taken `lock->lock`. -/
def LockUser.Owns (u : LockUser) : Prop := u.pc.owns = true

/-- The process has set `lock->locked`. -/
def LockUser.Holds (u : LockUser) : Prop := u.pc.holds = true

/-- The CPU that a process has stored. -/
def LockUser.storedCpu (u : LockUser) : Option Nat := if u.pc.stored then u.cpu else none

/-- A process that is inside one of the functions has a CPU. -/
def LockUser.Placed (u : LockUser) : Prop :=
  u.pc.live = true ∧ (u.pc ≠ .outside → u.pc ≠ .holding → u.cpu ≠ none)

namespace LockSystem

variable {π : Type} {s t : LockSystem π} {p q : π} {c : Nat} {u : LockUser} {site : LockSite}

/-- Every process has a CPU if it needs one, a CPU has one process, the inner lock is with the owner
and `lock->locked` with the holder, and who is about to set it finds it clear. -/
structure Inv (s : LockSystem π) : Prop where
  placed : ∀ p, (s.user p).Placed
  alone : ∀ p q c, (s.user p).cpu = some c → (s.user q).cpu = some c → p = q
  owner : Token (fun p => (s.user p).Owns) s.owner
  isOwned : s.lock.locked = s.owner.isSome
  cpu : s.lock.cpu = s.owner.bind fun p => (s.user p).storedCpu
  holder : Token (fun p => (s.user p).Holds) s.holder
  isHeld : s.locked = s.holder.isSome
  free : ∀ p, (s.user p).pc = .setLocked → s.locked = false

/-- Whoever has taken `lock->lock` and stored its CPU holds it there. -/
theorem Inv.holding (h : s.Inv) (hstored : (s.user p).pc.stored = true)
    (hcpu : (s.user p).cpu = some c) : s.lock.Holding c := by
  have howner := (h.owner p).mpr (LockPc.owns_of_stored hstored)
  refine ⟨?_, ?_⟩
  · rw [h.isOwned, howner]
    rfl
  · rw [h.cpu, howner, Option.bind_some, LockUser.storedCpu, if_pos hstored]
    exact hcpu

/-- Whoever has not taken `lock->lock` does not hold it on its CPU. -/
theorem Inv.not_holding (h : s.Inv) (howns : (s.user p).pc.owns = false)
    (hcpu : (s.user p).cpu = some c) : ¬s.lock.Holding c := by
  intro hholding
  have hlock := hholding.2
  rw [h.cpu, Option.bind_eq_some_iff] at hlock
  obtain ⟨q, howner, hq⟩ := hlock
  rw [LockUser.storedCpu] at hq
  split at hq
  · obtain rfl := h.alone q p c hq hcpu
    exact Bool.noConfusion (howns.symm.trans ((h.owner q).mp howner))
  · cases hq

variable [DecidableEq π]

/-- What a step of `p` has to keep. The rest of the state is that of the other processes, so what is
asked for is about `p` and about the two locks. -/
theorem Inv.update (h : s.Inv) (huser : t.user = Function.update s.user p u)
    (hplaced : u.Placed) (hcpu : ∀ c, u.cpu = some c → ∀ q ≠ p, (s.user q).cpu ≠ some c)
    (howner : Token (fun q => (t.user q).Owns) t.owner)
    (hisOwned : t.lock.locked = t.owner.isSome)
    (hlock : t.lock.cpu = t.owner.bind fun q => (t.user q).storedCpu)
    (hholder : Token (fun q => (t.user q).Holds) t.holder)
    (hisHeld : t.locked = t.holder.isSome)
    (hfree : ∀ q, (t.user q).pc = .setLocked → t.locked = false) : t.Inv := by
  refine ⟨?_, ?_, howner, hisOwned, hlock, hholder, hisHeld, hfree⟩
  · intro q
    rw [huser]
    exact Function.forall_update_iff _ _ |>.mpr ⟨hplaced, fun q _ => h.placed q⟩ q
  · rw [huser]
    intro q q' c hq hq'
    by_cases hqp : q = p <;> by_cases hqp' : q' = p
    · exact hqp.trans hqp'.symm
    · subst hqp
      rw [Function.update_self] at hq
      rw [Function.update_of_ne hqp'] at hq'
      exact absurd hq' (hcpu c hq q' hqp')
    · subst hqp'
      rw [Function.update_self] at hq'
      rw [Function.update_of_ne hqp] at hq
      exact absurd hq (hcpu c hq' q hqp)
    · rw [Function.update_of_ne hqp] at hq
      rw [Function.update_of_ne hqp'] at hq'
      exact h.alone q q' c hq hq'

omit [DecidableEq π] in
/-- The CPU of `p` is with no other process. -/
theorem Inv.others (h : s.Inv) (hcpu : u.cpu = (s.user p).cpu) (c : Nat) (hc : u.cpu = some c) :
    ∀ q ≠ p, (s.user q).cpu ≠ some c :=
  fun q hq hqc => hq (h.alone q p c hqc (hcpu ▸ hc))

/-- The CPU in `lock->lock`, when the step of `p` is not about it. -/
theorem Inv.cpu_update (h : s.Inv) (hu : u.storedCpu = (s.user p).storedCpu) :
    s.lock.cpu = s.owner.bind fun q => (Function.update s.user p u q).storedCpu := by
  rw [h.cpu]
  congr 1
  funext q
  by_cases hq : q = p
  · subst hq
    rw [Function.update_self, hu]
  · rw [Function.update_of_ne hq]

/-- The processes that are about to set `lock->locked`. -/
theorem Inv.free_update (h : s.Inv) (hu : u.pc = .setLocked → s.locked = false) (q : π)
    (hq : (Function.update s.user p u q).pc = .setLocked) : s.locked = false := by
  by_cases hqp : q = p
  · subst hqp
    rw [Function.update_self] at hq
    exact hu hq
  · rw [Function.update_of_ne hqp] at hq
    exact h.free q hq

/-- A step that does not touch the lock. -/
theorem Inv.goto (h : s.Inv) (hplaced : u.Placed)
    (hcpu : ∀ c, u.cpu = some c → ∀ q ≠ p, (s.user q).cpu ≠ some c)
    (howns : u.Owns ↔ (s.user p).Owns) (hstored : u.storedCpu = (s.user p).storedCpu)
    (hholds : u.Holds ↔ (s.user p).Holds) (hfree : u.pc = .setLocked → s.locked = false) :
    (s.setUser p u).Inv :=
  h.update rfl hplaced hcpu (h.owner.keep howns) h.isOwned (h.cpu_update hstored)
    (h.holder.keep hholds) h.isHeld (h.free_update hfree)

omit [DecidableEq π] in
/-- No process is behind the `acquire_spinlock` of `sleep`. -/
theorem Inv.live (h : s.Inv) {pc : LockPc} (hpc : (s.user p).pc = pc) : pc.live = true :=
  hpc ▸ (h.placed p).1

omit [DecidableEq π] in
/-- A process at such a place is the owner. -/
theorem Inv.owner_of (h : s.Inv) {pc : LockPc} (hpc : (s.user p).pc = pc) (howns : pc.owns = true) :
    s.owner = some p :=
  (h.owner p).mpr (hpc ▸ howns : (s.user p).pc.owns = true)

/-- A process that stays on its CPU. -/
theorem placed_of {pc : LockPc} (hlive : pc.live = true) (hcpu : u.cpu = some c) :
    ({ u with pc := pc } : LockUser).Placed :=
  ⟨hlive, fun _ _ hnone => nomatch hnone.symm.trans hcpu⟩

/-- The process takes `lock->lock`. No other process is past its loop, since that one would be the
owner and the lock would be taken. -/
theorem Inv.take (h : s.Inv) (hcpu : (s.user p).cpu = some c) (hpc : (s.user p).pc = .spin site)
    (hlocked : s.lock.locked = false) :
    ({ s with lock := { s.lock with locked := true }, owner := some p }.setPc p
      (.store site)).Inv := by
  have hnone : s.owner = none := by
    rw [← Option.not_isSome_iff_eq_none, ← h.isOwned, hlocked]
    decide
  have hlive := h.live hpc
  have howner := h.owner
  have hlock := h.cpu
  rw [hnone] at howner hlock
  refine h.update rfl (placed_of hlive hcpu) (h.others rfl) (howner.take rfl) rfl ?_
    (h.holder.keep ?_) h.isHeld (h.free_update (nomatch ·))
  · apply hlock.trans
    show none = (Function.update s.user p _ p).storedCpu
    rw [Function.update_self]
    rfl
  · simp only [LockUser.Holds, hpc]
    rfl

/-- The process stores its CPU. From here on the lock is held by it in the sense of
`holding_spinlock`. -/
theorem Inv.store (h : s.Inv) (hcpu : (s.user p).cpu = some c) (hpc : (s.user p).pc = .store site) :
    ({ s with lock := { s.lock with cpu := some c } }.setPc p site.acquired).Inv := by
  have howner := h.owner_of hpc rfl
  have hlive := h.live hpc
  have hnext : site.acquired.live = true ∧ site.acquired.stored = true ∧
      (site.acquired.holds = true ↔ (s.user p).Holds) ∧ site.acquired ≠ .setLocked := by
    rw [LockUser.Holds, hpc]
    cases site with
    | enter => decide
    | leave => decide
    | sleep => cases hlive
  obtain ⟨hlive, hstored, hholds, hne⟩ := hnext
  refine h.update rfl (placed_of hlive hcpu) (h.others rfl) (h.owner.keep ?_) h.isOwned ?_
    (h.holder.keep hholds) h.isHeld (h.free_update (absurd · hne))
  · rw [LockUser.Owns, LockUser.Owns, hpc]
    exact iff_of_true (LockPc.owns_of_stored hstored) rfl
  · show some c = s.owner.bind fun q => (Function.update s.user p _ q).storedCpu
    rw [howner, Option.bind_some, Function.update_self, LockUser.storedCpu, if_pos hstored]
    exact hcpu.symm

/-- The process sets `lock->locked`. It has the inner lock and has found `lock->locked` clear, so
that nobody else is the holder. -/
theorem Inv.hold (h : s.Inv) (hcpu : (s.user p).cpu = some c) (hpc : (s.user p).pc = .setLocked) :
    ({ s with locked := true, holder := some p }.setPc p (.release .enter)).Inv := by
  have hnone : s.holder = none := by
    rw [← Option.not_isSome_iff_eq_none, ← h.isHeld, h.free p hpc]
    decide
  have hholder := h.holder
  rw [hnone] at hholder
  refine h.update rfl (placed_of rfl hcpu) (h.others rfl) (h.owner.keep ?_) h.isOwned
    (h.cpu_update ?_) (hholder.take rfl) rfl ?_
  · simp only [LockUser.Owns, hpc]
    rfl
  · simp only [LockUser.storedCpu, hpc]
    rfl
  · -- only the owner of `lock->lock` is about to set `lock->locked`
    intro q hq
    replace hq : (Function.update s.user p _ q).pc = .setLocked := hq
    by_cases hqp : q = p
    · rw [hqp, Function.update_self] at hq
      cases hq
    · rw [Function.update_of_ne hqp] at hq
      have howner := (h.owner_of hq rfl).symm.trans (h.owner_of hpc rfl)
      exact absurd (Option.some.inj howner) hqp

/-- The process clears `lock->lock->cpu`, the first of the two stores of `release_spinlock`. It
stays the owner until the second. -/
theorem Inv.clearCpu (h : s.Inv) (hcpu : (s.user p).cpu = some c)
    (hpc : (s.user p).pc = .clearCpu site) :
    ({ s with lock := { s.lock with cpu := none } }.setPc p (.clear site)).Inv := by
  have howner := h.owner_of hpc rfl
  have hlive := h.live hpc
  refine h.update rfl (placed_of hlive hcpu) (h.others rfl) (h.owner.keep ?_) h.isOwned ?_
    (h.holder.keep ?_) h.isHeld (h.free_update (nomatch ·))
  · simp only [LockUser.Owns, hpc]
    rfl
  · show none = s.owner.bind fun q => (Function.update s.user p _ q).storedCpu
    rw [howner, Option.bind_some, Function.update_self]
    rfl
  · simp only [LockUser.Holds, hpc]
    rfl

/-- The process gives up `lock->lock`, with the second store of `release_spinlock`. The owner is
none from here on. -/
theorem Inv.clear (h : s.Inv) (hcpu : (s.user p).cpu = some c) (hpc : (s.user p).pc = .clear site) :
    ({ s with lock := { s.lock with locked := false }, owner := none }.setPc p
      site.released).Inv := by
  have howner := h.owner_of hpc rfl
  have hlive := h.live hpc
  have hlock := h.cpu
  rw [howner, Option.bind_some, LockUser.storedCpu, hpc] at hlock
  have hnext : site.released.live = true ∧ site.released.owns = false ∧
      (site.released.holds = true ↔ (s.user p).Holds) ∧ site.released ≠ .setLocked := by
    rw [LockUser.Holds, hpc]
    cases site with
    | enter => decide
    | leave => decide
    | sleep => cases hlive
  obtain ⟨hlive, howns, hholds, hne⟩ := hnext
  refine h.update rfl (placed_of hlive hcpu) (h.others rfl) (h.owner.drop ((h.owner p).mp howner) ?_)
    rfl hlock (h.holder.keep hholds) h.isHeld (h.free_update (absurd · hne))
  exact fun htrue => nomatch howns.symm.trans htrue

/-- The process clears `lock->locked`. It was the holder, and is in the section of `lock->lock`
while it does so. -/
theorem Inv.clearLocked (h : s.Inv) (hcpu : (s.user p).cpu = some c)
    (hpc : (s.user p).pc = .clearLocked) :
    ({ s with locked := false, holder := none }.setPc p (.release .leave)).Inv := by
  refine h.update rfl (placed_of rfl hcpu) (h.others rfl) (h.owner.keep ?_) h.isOwned
    (h.cpu_update ?_) (h.holder.drop ?_ ?_) rfl (fun _ _ => rfl)
  · simp only [LockUser.Owns, hpc]
    rfl
  · simp only [LockUser.storedCpu, hpc]
    rfl
  · simp only [LockUser.Holds, hpc]
    rfl
  · exact fun hholds => nomatch hholds

omit [DecidableEq π] in
/-- `wakeup` changes no process in a way that matters to the lock. -/
theorem Inv.wakeup (h : s.Inv) :
    ({ s with user := fun q => { s.user q with proc := (s.user q).proc.wakeup () } }).Inv :=
  ⟨h.placed, h.alone, h.owner, h.isOwned, h.cpu, h.holder, h.isHeld, h.free⟩

/-- A step on the CPU of the process that does not touch the lock. -/
theorem Inv.stay (h : s.Inv) (hcpu : (s.user p).cpu = some c) {pc : LockPc}
    (hpc : (s.user p).pc = pc) (proc : Sleeper Unit) {pc' : LockPc}
    (hsame : pc'.live = true ∧ pc'.owns = pc.owns ∧ pc'.stored = pc.stored ∧ pc'.holds = pc.holds)
    (hfree : pc' = .setLocked → s.locked = false) :
    (s.setUser p ⟨proc, pc', (s.user p).cpu⟩).Inv := by
  subst hpc
  obtain ⟨hlive, howns, hstored, hholds⟩ := hsame
  refine h.goto ⟨hlive, fun _ _ hnone => nomatch hnone.symm.trans hcpu⟩ (h.others rfl) ?_ ?_ ?_ hfree
  · simp only [LockUser.Owns, howns]
  · simp only [LockUser.storedCpu, hstored]
  · simp only [LockUser.Holds, hholds]

omit [DecidableEq π] in
/-- `acquire_spinlock` stops in `sleep`, and goes on elsewhere. In `sleep` the process has
`lock->lock` itself, as `acquire_sleeplock` has taken it. -/
theorem Inv.acquireCheck (h : s.Inv) (hcpu : (s.user p).cpu = some c)
    (hpc : (s.user p).pc = .acquire site) :
    s.lock.acquireCheck c = if site = .sleep
      then .error (.panic ("acquire: lock " ++ s.lock.name ++ " already held\n")) else .ok () := by
  by_cases hsite : site = .sleep
  · subst hsite
    have hholding : s.lock.Holding c := h.holding (by rw [hpc]; rfl) hcpu
    rw [if_pos rfl, SpinLock.acquireCheck, if_pos hholding]
  · rw [if_neg hsite]
    refine SpinLock.acquireCheck_of (h.not_holding (p := p) ?_ hcpu)
    rw [hpc]
    exact decide_eq_false hsite

/-- A step of a process inside one of the functions, with a case for each place. The checks of the
inner lock pass, or it is the one in `sleep`. -/
theorem Inv.runOn (h : s.Inv) (hcpu : (s.user p).cpu = some c) (hstep : s.runOn p c = .ok t) :
    t.Inv := by
  rw [LockSystem.runOn] at hstep
  cases hpc : (s.user p).pc <;> rw [hpc] at hstep
  case acquire site =>
    obtain ⟨u, hcheck, ht⟩ := bind_eq_ok.mp hstep
    cases ht
    rw [h.acquireCheck hcpu hpc] at hcheck
    cases site with
    | enter => exact h.stay hcpu hpc _ (by decide) (nomatch ·)
    | leave => exact h.stay hcpu hpc _ (by decide) (nomatch ·)
    -- `sleep` takes the lock that its caller has: the check fails.
    | sleep => cases hcheck
  case spin site =>
    dsimp only at hstep
    split at hstep
    · cases hstep
    · next hlocked =>
      cases hstep
      exact h.take hcpu hpc (by simpa using hlocked)
  case store site =>
    cases hstep
    exact h.store hcpu hpc
  case test =>
    cases hstep
    cases hlocked : s.locked with
    | true => exact h.stay hcpu hpc _ (by decide) (nomatch ·)
    | false => exact h.stay hcpu hpc _ (by decide) fun _ => hlocked
  case setState =>
    cases hstep
    exact h.stay hcpu hpc _ (by decide) (nomatch ·)
  case setChan =>
    cases hstep
    exact h.stay hcpu hpc _ (by decide) (nomatch ·)
  -- No process of such a run gets to the end of `sleep`.
  case sched => cases h.live hpc
  case setLocked =>
    cases hstep
    exact h.hold hcpu hpc
  case release site =>
    obtain ⟨-, -, ht⟩ := bind_eq_ok.mp hstep
    cases ht
    have hlive := h.live hpc
    exact h.stay hcpu hpc _ ⟨hlive, rfl, rfl, rfl⟩ (nomatch ·)
  case clearCpu site =>
    cases hstep
    exact h.clearCpu hcpu hpc
  case clear site =>
    cases hstep
    exact h.clear hcpu hpc
  case clearLocked =>
    cases hstep
    exact h.clearLocked hcpu hpc
  case wakeup =>
    cases hstep
    exact h.wakeup.stay (p := p) hcpu hpc _ (by decide) (nomatch ·)
  all_goals cases hstep

/-- A call of `acquire_sleeplock`. -/
theorem Inv.call (h : s.Inv) (hstep : s.step (.call p) = .ok t) : t.Inv := by
  rw [LockSystem.step] at hstep
  split at hstep
  · next hpc hcpu =>
    cases hstep
    exact h.stay hcpu hpc _ (by decide) (nomatch ·)
  · cases hstep

/-- A call of `release_sleeplock`. -/
theorem Inv.finish (h : s.Inv) (hstep : s.step (.finish p) = .ok t) : t.Inv := by
  rw [LockSystem.step] at hstep
  split at hstep
  · next hpc hcpu =>
    cases hstep
    exact h.stay hcpu hpc _ (by decide) (nomatch ·)
  · cases hstep

/-- A process that is in neither function changes its CPU. It has no part in `lock->lock`, so that
nothing there depends on the number. -/
theorem Inv.place (h : s.Inv) (hpc : (s.user p).pc = .outside ∨ (s.user p).pc = .holding)
    {cpu : Option Nat} (hcpu : ∀ c, cpu = some c → ∀ q ≠ p, (s.user q).cpu ≠ some c) :
    (s.setUser p { s.user p with cpu := cpu }).Inv := by
  refine h.goto ⟨(h.placed p).1, ?_⟩ hcpu Iff.rfl ?_ Iff.rfl (h.free p)
  · intro hout hhold
    rcases hpc with hpc | hpc
    · exact absurd hpc hout
    · exact absurd hpc hhold
  · rcases hpc with hpc | hpc <;> simp only [LockUser.storedCpu, hpc] <;> rfl

/-- The step lemma: the two calls, a step inside, and the changes of the CPU. -/
theorem Inv.step {a : LockStep π} (h : s.Inv) (hok : s.Allowed a) (hstep : s.step a = .ok t) :
    t.Inv := by
  cases a with
  | call p => exact h.call hstep
  | finish p => exact h.finish hstep
  | run p =>
    rw [LockSystem.step] at hstep
    split at hstep
    · next hcpu => exact h.runOn hcpu hstep
    · cases hstep
  | off p =>
    rw [LockSystem.step] at hstep
    split at hstep
    · next hpc =>
      cases hstep
      exact h.place (.inl hpc) (fun _ hnone => nomatch hnone)
    · next hpc =>
      cases hstep
      exact h.place (.inr hpc) (fun _ hnone => nomatch hnone)
    · cases hstep
  | on p c =>
    have hfree : ∀ d, some c = some d → ∀ q ≠ p, (s.user q).cpu ≠ some d := by
      intro d hd q _
      cases hd
      exact hok q
    rw [LockSystem.step] at hstep
    split at hstep
    · next hpc _ _ => cases h.live hpc
    · next hpc _ =>
      cases hstep
      exact h.place (.inl hpc) hfree
    · next hpc _ =>
      cases hstep
      exact h.place (.inr hpc) hfree
    · cases hstep

/-! ## Runs

The two invariants along a run, and the run into the panic. -/

omit [DecidableEq π] in
/-- Nobody has anything. -/
theorem Inv.init (name : String) : (initSleeplock name : LockSystem π).Inv := by
  refine ⟨?_, ?_, ?_, rfl, rfl, ?_, rfl, ?_⟩
  · exact fun p => ⟨rfl, fun hout => absurd rfl hout⟩
  · exact fun p q c hcpu => nomatch hcpu
  · exact fun p => ⟨fun h => (nomatch h), fun h => (nomatch h)⟩
  · exact fun p => ⟨fun h => (nomatch h), fun h => (nomatch h)⟩
  · exact fun p hpc => nomatch hpc

variable {name : String}

/-- The invariant along a run. -/
theorem Reaches.inv {ok : LockSystem π → LockStep π → Prop} (h : Reaches ok name s) : s.Inv :=
  Steps.invariant h (Inv.init name) fun _ _ _ hs hok hstep => hs.step hok.1 hstep

/-- What holds of all processes and of the one that changes. -/
theorem setUser_forall {P : LockUser → Prop} (h : ∀ q, P (s.user q)) (hu : P u) (q : π) :
    P ((s.setUser p u).user q) :=
  (Function.forall_update_iff s.user fun _ v => P v).mpr ⟨hu, fun q _ => h q⟩ q

/-- No process is on its way into `sleep`. -/
def NoSleep (s : LockSystem π) : Prop := ∀ p, (s.user p).pc.toSleep = false

/-- A step to a place that is not on the way into `sleep`. -/
theorem NoSleep.setUser (h : s.NoSleep) (hu : u.pc.toSleep = false) : (s.setUser p u).NoSleep :=
  setUser_forall (P := fun u => u.pc.toSleep = false) h hu

/-- The test finds the lock free, so the process goes on to take it. No other place leads into
`sleep`. -/
theorem NoSleep.runOn (h : s.NoSleep) (hok : (s.user p).pc = .test → s.locked = false)
    (hstep : s.runOn p c = .ok t) : t.NoSleep := by
  have hp := h p
  rw [LockSystem.runOn] at hstep
  cases hpc : (s.user p).pc <;> rw [hpc] at hstep hp
  case acquire site =>
    obtain ⟨-, -, ht⟩ := bind_eq_ok.mp hstep
    cases ht
    exact h.setUser rfl
  case spin site =>
    dsimp only at hstep
    split at hstep <;> cases hstep
    exact h.setUser rfl
  case store site =>
    cases hstep
    apply NoSleep.setUser h
    cases site <;> rfl
  case test =>
    cases hstep
    apply h.setUser
    rw [hok hpc]
    rfl
  case release site =>
    obtain ⟨-, -, ht⟩ := bind_eq_ok.mp hstep
    cases ht
    exact h.setUser rfl
  case clear site =>
    cases hstep
    apply NoSleep.setUser h
    cases site <;> rfl
  case setState => cases hp
  case setChan => cases hp
  all_goals cases hstep <;> exact NoSleep.setUser h rfl

/-- Without contention no process gets to `sleep`. Calls and changes of the CPU do not lead there.
-/
theorem NoSleep.step {a : LockStep π} (h : s.NoSleep) (hok : s.Uncontended a)
    (hstep : s.step a = .ok t) : t.NoSleep := by
  cases a with
  | run p =>
    rw [LockSystem.step] at hstep
    split at hstep
    · exact h.runOn hok hstep
    · cases hstep
  | call p =>
    rw [LockSystem.step] at hstep
    split at hstep <;> cases hstep
    exact h.setUser rfl
  | finish p =>
    rw [LockSystem.step] at hstep
    split at hstep <;> cases hstep
    exact h.setUser rfl
  | off p =>
    rw [LockSystem.step] at hstep
    split at hstep <;> cases hstep <;> exact h.setUser (h p)
  | on p c =>
    rw [LockSystem.step] at hstep
    split at hstep <;> cases hstep
    · exact h.setUser rfl
    · exact h.setUser (h p)
    · exact h.setUser (h p)

theorem Reaches.noSleep (h : Reaches Uncontended name s) : s.NoSleep :=
  Steps.invariant h (fun _ => rfl) fun _ _ _ hs hok hstep => hs.step hok.2 hstep

/-- The only panic is the one in `sleep`. Elsewhere `acquire_spinlock` is called without the lock,
and `release_spinlock` with it. -/
theorem Inv.no_panic {a : LockStep π} {msg : String} (h : s.Inv) (hsleep : s.NoSleep) :
    s.step a ≠ .error (.panic msg) := by
  intro hstep
  cases a with
  | run p =>
    rw [LockSystem.step] at hstep
    split at hstep
    · next c hcpu =>
      have hp := hsleep p
      rw [LockSystem.runOn] at hstep
      cases hpc : (s.user p).pc <;> rw [hpc] at hstep hp
      case acquire site =>
        have hsite : site ≠ .sleep := of_decide_eq_false hp
        rw [h.acquireCheck hcpu hpc, if_neg hsite] at hstep
        cases hstep
      case spin site =>
        dsimp only at hstep
        split at hstep <;> cases hstep
      case release site =>
        have hholding : s.lock.Holding c := h.holding (by rw [hpc]; rfl) hcpu
        rw [SpinLock.releaseCheck_of hholding] at hstep
        cases hstep
      all_goals cases hstep
    · cases hstep
  | _ => 
    rw [LockSystem.step] at hstep
    split at hstep <;> cases hstep

@[simp] theorem setUser_self : (s.setUser p u).user p = u := Function.update_self p _ s.user

/-- A step of a process that is on a CPU. -/
theorem step_run_of (hcpu : (s.user p).cpu = some c) : s.step (.run p) = s.runOn p c := by
  rw [step, hcpu]

/-- From the test to the panic: the process sets `state` and `chan`, and then takes `lock->lock`
once more. Nothing that others do is needed for it, and nothing of it can be put off. -/
theorem Inv.panic_of_contended (h : s.Inv) (hpc : (s.user p).pc = .test) (hlocked : s.locked = true)
    (hcpu : (s.user p).cpu = some c) :
    ∃ t, StepsOf LockSystem.step (fun _ a => a = .run p) s t ∧
      t.step (.run p) = .error (.panic ("acquire: lock " ++ s.lock.name ++ " already held\n")) := by
  -- the process after each of its three steps
  let u₁ : LockUser := { s.user p with pc := .setState }
  let u₂ : LockUser := ⟨{ (s.user p).proc with state := .sleeping }, .setChan, (s.user p).cpu⟩
  let u₃ : LockUser := ⟨⟨.sleeping, some ()⟩, .acquire .sleep, (s.user p).cpu⟩
  have hstep₁ : s.step (.run p) = .ok (s.setUser p u₁) := by
    rw [step_run_of hcpu, LockSystem.runOn, hpc]
    simp only [hlocked]
    rfl
  have hstep₂ : (s.setUser p u₁).step (.run p) = .ok ((s.setUser p u₁).setUser p u₂) := by
    rw [step_run_of (c := c) (by rwa [setUser_self]), LockSystem.runOn, setUser_self]
  have hstep₃ : ((s.setUser p u₁).setUser p u₂).step (.run p) =
      .ok (((s.setUser p u₁).setUser p u₂).setUser p u₃) := by
    rw [step_run_of (c := c) (by rwa [setUser_self]), LockSystem.runOn, setUser_self]
  have hallowed : ∀ t : LockSystem π, t.Allowed (.run p) := fun _ => trivial
  have hinv := ((h.step (hallowed _) hstep₁).step (hallowed _) hstep₂).step (hallowed _) hstep₃
  refine ⟨_, Steps.head rfl hstep₁ (Steps.head rfl hstep₂ (Steps.head rfl hstep₃ (Steps.refl _))), ?_⟩
  have hself : (((s.setUser p u₁).setUser p u₂).setUser p u₃).user p = u₃ := setUser_self
  rw [step_run_of (c := c) (by rwa [hself]), LockSystem.runOn, hself]
  dsimp only [u₃]
  rw [hinv.acquireCheck (p := p) (by rwa [hself]) (by rw [hself])]
  rfl

/-- Without contention, the lock excludes, nothing panics, and nobody sleeps with `lock->lock` taken
or leaves `sleep` without it. A process that finds the lock taken panics. -/
theorem sleeplock_iff_uncontended (name : String) :
    (∀ s : LockSystem π, Reaches Uncontended name s →
      (∀ p q, (s.user p).Holds → (s.user q).Holds → p = q) ∧
      (∀ a msg, s.step a ≠ .error (.panic msg)) ∧
      (∀ p, (s.user p).pc = .asleep → s.owner ≠ some p) ∧
      (∀ p, (s.user p).pc = .test → s.owner = some p)) ∧
    ∀ s : LockSystem π, Reaches (fun _ _ => True) name s → ∀ p, ¬s.Uncontended (.run p) →
      ∃ t, StepsOf step (fun _ a => a = .run p) s t ∧
        t.step (.run p) = .error (.panic ("acquire: lock " ++ s.lock.name ++ " already held\n")) := by
  refine ⟨?_, ?_⟩
  · intro s h
    have hinv := h.inv
    refine ⟨?_, ?_, ?_, ?_⟩
    · exact fun p q hp hq => hinv.holder.unique hp hq
    · exact fun a msg => hinv.no_panic h.noSleep
    · exact fun p hpc => nomatch hinv.live hpc
    · exact fun p hpc => hinv.owner_of hpc rfl
  · intro s h p hcontended
    simp only [Uncontended, Classical.not_imp, Bool.not_eq_false] at hcontended
    obtain ⟨hpc, hlocked⟩ := hcontended
    obtain ⟨c, hcpu⟩ := Option.ne_none_iff_exists'.mp
      ((h.inv.placed p).2 (by rw [hpc]; decide) (by rw [hpc]; decide))
    exact h.inv.panic_of_contended hpc hlocked hcpu

/-- A process on its way through `acquire_sleeplock`, up to its return. -/
def acquireSteps (p : π) (c : Nat) : List (LockStep π) :=
  [.on p c, .call p, .run p, .run p, .run p, .run p, .run p, .run p, .run p, .run p]

/-- Two processes on two CPUs; the second wants the lock while the first has it. -/
theorem contended_acquire_panics : ∃ s : LockSystem Bool, Reaches (fun _ _ => True) "inode" s ∧
    s.step (.run true) = .error (.panic "acquire: lock inode already held\n") := by
  obtain ⟨s, hrun, hstep⟩ : ∃ s, runList step (fun s a => s.Allowed a ∧ True)
      (initSleeplock "inode" : LockSystem Bool)
      (acquireSteps false 0 ++ [.on true 1, .call true, .run true, .run true, .run true, .run true,
        .run true, .run true]) = some s ∧
      s.step (.run true) = .error (.panic "acquire: lock inode already held\n") :=
    ⟨_, rfl, rfl⟩
  exact ⟨s, StepsOf.of_runList hrun, hstep⟩

/-- The second process wants the lock after the first has given it up. -/
theorem sleeplock_iff_uncontended_turns : ∃ s : LockSystem Bool, Reaches Uncontended "inode" s ∧
    (s.user true).pc = .holding ∧ ∀ a msg, s.step a ≠ .error (.panic msg) := by
  obtain ⟨s, hrun, hholds⟩ : ∃ s, runList step (fun s a => s.Allowed a ∧ s.Uncontended a)
      (initSleeplock "inode" : LockSystem Bool)
      (acquireSteps false 0 ++ [.finish false] ++ List.replicate 8 (.run false) ++
        acquireSteps true 1) = some s ∧ (s.user true).pc = .holding :=
    ⟨_, rfl, rfl⟩
  have hreach : Reaches Uncontended "inode" s := StepsOf.of_runList hrun
  exact ⟨s, hreach, hholds, ((sleeplock_iff_uncontended "inode").1 s hreach).2.1⟩

end LockSystem

end KernelAarch64.Core
