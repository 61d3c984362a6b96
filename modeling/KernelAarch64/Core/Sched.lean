import KernelAarch64.Common.SpinLock
import KernelAarch64.Core.Container
import KernelAarch64.Core.Proc
import KernelAarch64.Lib.Steps

/-!
# Schedulers (`core/sched.c`, `core/proc.c`)

Each CPU runs the scheduler of the root, which runs processes and the schedulers of containers,
which run theirs. A CPU takes the lock of an entry of the process table before it looks at it and
keeps it while it executes the entry; it gives it up when control is back. Control goes from one
code to another by `swtch`, which saves where the one was and goes on where the other was.

A step is one access to shared data by one CPU. A process does what it likes: it calls `yield`,
`sleep`, `exit` and `wakeup` and makes new processes, all of it step by step and at any time.
-/

namespace KernelAarch64.Core

open KernelAarch64.Lib KernelAarch64.Common

/-- The fields of `struct proc` in the order of their bytes, as far as schedulers use them. -/
inductive ProcField where
  | state
  | context
  | chan
  | cont
  | isScheduler
  | lockLocked
  | lockCpu
  | lockName
  | bounding
  deriving Repr, DecidableEq

/-- Where code is that makes a process or calls `wakeup`. `p` is the entry it is about. -/
inductive KernelPc (κ : Type) where
  /-- Somewhere else. -/
  | ready
  /-- `rec_wakeup` has seen `p` asleep on the channel. -/
  | wake (p : ProcPtr κ)
  /-- `alloc_pcb_simple` at `try_acquire_spinlock(&p->lock)`, ... -/
  | allocTry (p : ProcPtr κ)
  /-- ... at the look at `p->state`, ... -/
  | allocLook (p : ProcPtr κ)
  /-- ... at `release_spinlock(&p->lock)`, ... -/
  | allocRelease (p : ProcPtr κ)
  /-- ... in `memset(p, 0, sizeof(proc))`, at the store to a field, `p->lock` among them, ... -/
  | allocClear (p : ProcPtr κ) (field : ProcField)
  /-- ... and at `p->state = EMBRYO`. -/
  | allocState (p : ProcPtr κ)
  /-- `alloc_proc` at `acquire_spinlock(&p->lock)`, ... -/
  | initAcquire (p : ProcPtr κ)
  /-- ... at the set-up of the context, ... -/
  | initContext (p : ProcPtr κ)
  /-- ... and at `release_spinlock(&p->lock)`. -/
  | initRelease (p : ProcPtr κ)
  /-- The caller of `alloc_proc` at `acquire_spinlock(&p->lock)`, ... -/
  | startAcquire (p : ProcPtr κ)
  /-- ... at `p->state = RUNNABLE`, ... -/
  | startState (p : ProcPtr κ)
  /-- ... and at `release_spinlock(&p->lock)`. -/
  | startRelease (p : ProcPtr κ)
  deriving Repr, DecidableEq

/-- How a process gives up its CPU: `yield()`, `sleep(chan, ..)` or `exit()`. They differ in the
state that they set, and `sleep` writes the channel, too. -/
inductive Pause (χ : Type) where
  | yield
  | sleep (chan : χ)
  | exit
  deriving Repr, DecidableEq

/-- Where a process is. Between the stores and `sched` anything else may happen on other CPUs; on
its own CPU nothing does, since the kernel is not preempted. -/
inductive ProcPc (κ χ : Type) where
  | kernel (pc : KernelPc κ)
  /-- At `p->state = ..`. -/
  | setState (p : ProcPtr κ) (pause : Pause χ)
  /-- At `p->chan = chan`. -/
  | setChan (p : ProcPtr κ) (chan : χ)
  /-- At `sched()`, in `exit` or elsewhere. -/
  | sched (exit : Bool)
  /-- After the `sched()` of `exit`. -/
  | dead
  deriving Repr, DecidableEq

/-- The state that the process sets before it calls `sched`, without any lock but that of its own
entry, which the scheduler has taken. -/
def Pause.state {χ : Type} : Pause χ → ProcState
  | .yield => .runnable
  | .sleep _ => .sleeping
  | .exit => .zombie

/-- Where it goes on then: `sleep` has its channel still to write, the others call `sched`. -/
def Pause.next {κ χ : Type} (p : ProcPtr κ) : Pause χ → ProcPc κ χ
  | .yield => .sched false
  | .sleep chan => .setChan p chan
  | .exit => .sched true

/-- Where `scheduler_simple(this)` is, in the turn for `ptable.proc[i]`. Each place is one before an
access to shared data. -/
inductive SchedPc where
  /-- At `try_acquire_spinlock(&(p->lock))`. -/
  | next (i : Fin nproc)
  /-- At the look at `p->bounding`. -/
  | bound (i : Fin nproc)
  /-- At the look at `p->state`. -/
  | look (i : Fin nproc)
  /-- At `p->state = RUNNING`. -/
  | mark (i : Fin nproc)
  /-- At `swtch`. -/
  | dispatch (i : Fin nproc)
  /-- At `release_spinlock(&(p->lock))`, after `swtch` or without. -/
  | release (i : Fin nproc) (hasRun : Bool)
  /-- At `yield_scheduler(this)`. -/
  | yieldUp (i : Fin nproc)
  /-- In `yield_scheduler(this)`, at `sched()`. -/
  | sched (i : Fin nproc)
  deriving Repr, DecidableEq

/-- What a CPU runs, or goes on with after a `swtch`. A saved context is the code that goes on
there; what the registers and the stack hold is the business of `Core.Threads`. -/
inductive Code (κ χ : Type) where
  /-- `scheduler_simple(this)` -/
  | scheduler (this : κ) (pc : SchedPc)
  /-- `main` or `container_entry`, before `scheduler_simple`. -/
  | entry (pc : KernelPc κ)
  /-- The process `p`. -/
  | process (p : ProcPtr κ) (pc : ProcPc κ χ)
  deriving Repr, DecidableEq

/-- The entry and the field that `memset` is about to clear, while `alloc_pcb` is at it. The fields
are cleared one after the other, in the order of the structure. -/
def KernelPc.clearing {κ : Type} : KernelPc κ → Option (ProcPtr κ × ProcField)
  | .allocClear p field => some (p, field)
  | _ => none

/-- The entry and the field that `memset` is about to clear. Two of these steps write to the lock of
the entry. -/
def Code.clearing {κ χ : Type} : Code κ χ → Option (ProcPtr κ × ProcField)
  | .entry pc => pc.clearing
  | .process _ (.kernel pc) => pc.clearing
  | _ => none

/-- What schedulers use of `struct proc`. An entry either is a process or stands for the scheduler
of a container; `context` is where a process goes on. -/
structure SchedProc (κ χ : Type) where
  state : ProcState
  chan : Option χ
  lock : SpinLock
  isScheduler : Bool
  cont : Option κ
  bounding : Nat
  context : Option (Code κ χ)

/-- `struct cpu`, and what the CPU runs. `scheduler` and `proc` are rewritten at every switch, on
the way down and on the way up. -/
structure CpuState (κ χ : Type) where
  scheduler : κ
  proc : Option (ProcPtr κ)
  code : Code κ χ

/-- The containers: `parent` of the schedulers and `p` of the containers, which is an entry of the
table of the parent. -/
structure SchedTree (κ : Type) where
  root : κ
  parent : κ → Option κ
  p : κ → Option (ProcPtr κ)
  depth : κ → Nat
  parent_eq : ∀ k, parent k = (p k).map ProcPtr.cont
  p_root : p root = none
  p_inj : ∀ k l e, p k = some e → p l = some e → k = l
  depth_lt : ∀ k e, p k = some e → depth e.cont < depth k

/-- All the process tables, the contexts of the schedulers for each CPU, and the CPUs. -/
structure SchedSystem (κ χ : Type) where
  proc : ProcPtr κ → SchedProc κ χ
  /-- `scheduler.context[cpu]` -/
  context : κ → Nat → Option (Code κ χ)
  cpu : Nat → CpuState κ χ

/-- What a CPU does: it goes on, or its code decides on something. Code that makes processes and
wakes others may do so in any order and as often as it likes. -/
inductive SchedAct (κ χ : Type) where
  | go
  /-- `rec_wakeup(chan, ..)` looks at an entry. -/
  | wakeup (p : ProcPtr κ) (chan : χ)
  /-- A call of `alloc_proc`. -/
  | alloc
  /-- A call of `scheduler_simple`. -/
  | enter
  | pause (pause : Pause χ)
  deriving Repr, DecidableEq

/-- The field set to zero, as `memset` does byte by byte. The lock has three members, so that it is
cleared in three steps. -/
def SchedProc.clear {κ χ : Type} (q : SchedProc κ χ) : ProcField → SchedProc κ χ
  | .state => { q with state := .unused }
  | .context => { q with context := none }
  | .chan => { q with chan := none }
  | .cont => { q with cont := none }
  | .isScheduler => { q with isScheduler := false }
  | .lockLocked => { q with lock := { q.lock with locked := false } }
  | .lockCpu => { q with lock := { q.lock with cpu := none } }
  | .lockName => { q with lock := { q.lock with name := "" } }
  | .bounding => { q with bounding := 0 }

/-- Where `memset` goes on after the field, and after the last one `p->state = EMBRYO`. -/
def ProcField.next {κ : Type} (p : ProcPtr κ) : ProcField → KernelPc κ
  | .state => .allocClear p .context
  | .context => .allocClear p .chan
  | .chan => .allocClear p .cont
  | .cont => .allocClear p .isScheduler
  | .isScheduler => .allocClear p .lockLocked
  | .lockLocked => .allocClear p .lockCpu
  | .lockCpu => .allocClear p .lockName
  | .lockName => .allocClear p .bounding
  | .bounding => .allocState p

namespace SchedSystem

variable {κ χ : Type} [DecidableEq κ]

def setProc (s : SchedSystem κ χ) (p : ProcPtr κ) (q : SchedProc κ χ) : SchedSystem κ χ :=
  { s with proc := Function.update s.proc p q }

def setLock (s : SchedSystem κ χ) (p : ProcPtr κ) (l : SpinLock) : SchedSystem κ χ :=
  s.setProc p { s.proc p with lock := l }

def setState (s : SchedSystem κ χ) (p : ProcPtr κ) (state : ProcState) : SchedSystem κ χ :=
  s.setProc p { s.proc p with state := state }

def setCpu (s : SchedSystem κ χ) (c : Nat) (u : CpuState κ χ) : SchedSystem κ χ :=
  { s with cpu := Function.update s.cpu c u }

def setCode (s : SchedSystem κ χ) (c : Nat) (code : Code κ χ) : SchedSystem κ χ :=
  s.setCpu c { s.cpu c with code := code }

def setContext (s : SchedSystem κ χ) (k : κ) (c : Nat) (code : Code κ χ) : SchedSystem κ χ :=
  { s with context := fun l d => if l = k ∧ d = c then some code else s.context l d }

/-- An entry that has not been used. -/
def cleared : SchedProc κ χ := ⟨.unused, none, ⟨false, none, ""⟩, false, none, 0, none⟩

/-- The end of a `swtch`: the CPU goes on with `code`. A context that was never set is a fault. -/
def resume (s : SchedSystem κ χ) (c : Nat) (code : Option (Code κ χ)) :
    Except Stop (SchedSystem κ χ) :=
  match code with
  | none => .error .fault
  | some code => .ok (s.setCode c code)

/-- `sched_simple` on the CPU `c`, which goes on with `code` later. The CPU goes one level up:
`c->proc` becomes the entry by which this scheduler is run, and control goes back to the scheduler.
-/
def schedSimple (T : SchedTree κ) (s : SchedSystem κ χ) (c : Nat) (code : Code κ χ) :
    Except Stop (SchedSystem κ χ) :=
  let this := (s.cpu c).scheduler
  match (s.cpu c).proc with
  | none => .error .fault
  | some p =>
    let s := s.setCpu c { s.cpu c with proc := T.p this }
    if (s.proc p).isScheduler then
      match (s.proc p).cont with
      | none => .error .fault
      | some k => (s.setContext k c code).resume c (s.context this c)
    else (s.setProc p { s.proc p with context := some code }).resume c (s.context this c)

/-- One step of `scheduler_simple(this)`, on the CPU `c`. A lock that is taken is passed by; an
entry that may not run here or is not `RUNNABLE` is given back. -/
def schedulerStep (T : SchedTree κ) (s : SchedSystem κ χ) (c : Nat) (this : κ) :
    SchedPc → Except Stop (SchedSystem κ χ)
  | .next i =>
    if (s.proc ⟨this, i⟩).lock.locked then .ok (s.setCode c (.scheduler this (.next (i + 1))))
    else .ok ((s.setLock ⟨this, i⟩ ((s.proc ⟨this, i⟩).lock.taken c)).setCode c
      (.scheduler this (.bound i)))
  | .bound i =>
    let bounding := (s.proc ⟨this, i⟩).bounding
    if bounding ≠ 0 ∧ bounding &&& (1 <<< c) = 0 then
      .ok (s.setCode c (.scheduler this (.release i false)))
    else .ok (s.setCode c (.scheduler this (.look i)))
  | .look i =>
    if (s.proc ⟨this, i⟩).state = .runnable then .ok (s.setCode c (.scheduler this (.mark i)))
    else .ok (s.setCode c (.scheduler this (.release i false)))
  | .mark i =>
    if (s.proc ⟨this, i⟩).isScheduler then .ok (s.setCode c (.scheduler this (.dispatch i)))
    else .ok ((s.setState ⟨this, i⟩ .running).setCode c (.scheduler this (.dispatch i)))
  | .dispatch i =>
    let p := s.proc ⟨this, i⟩
    if p.isScheduler then
      match p.cont with
      | none => .error .fault
      | some k =>
        ((s.setCpu c { s.cpu c with proc := some ⟨this, i⟩, scheduler := k }).setContext this c
          (.scheduler this (.release i true))).resume c (s.context k c)
    else
      ((s.setCpu c { s.cpu c with proc := some ⟨this, i⟩ }).setContext this c
        (.scheduler this (.release i true))).resume c p.context
  | .release i hasRun => do
    (s.proc ⟨this, i⟩).lock.releaseCheck c
    return (s.setLock ⟨this, i⟩ (s.proc ⟨this, i⟩).lock.released).setCode c
      (.scheduler this (if hasRun then .yieldUp i else .next (i + 1)))
  | .yieldUp i =>
    match T.parent this with
    | none => .ok (s.setCode c (.scheduler this (.next (i + 1))))
    | some k =>
      match (s.cpu c).proc with
      | none => .error .fault
      | some p => .ok ((s.setState p .runnable).setCpu c
          { s.cpu c with scheduler := k, code := .scheduler this (.sched i) })
  | .sched i => schedSimple T s c (.scheduler this (.next (i + 1)))

/-- One step of the code that makes a process or calls `wakeup`, on the CPU `c`. `wakeup` writes
`RUNNABLE` without a lock, some time after it has looked. -/
def kernelStep (s : SchedSystem κ χ) (c : Nat) :
    KernelPc κ → Except Stop (SchedSystem κ χ × KernelPc κ)
  | .ready => .error .wait
  | .wake p => .ok (s.setState p .runnable, .ready)
  | .allocTry p =>
    if (s.proc p).lock.locked then
      -- `alloc_pcb` returns `NULL` after the last entry, and its callers use what it returns
      if h : p.index.val + 1 < nproc then .ok (s, .allocTry ⟨p.cont, ⟨p.index.val + 1, h⟩⟩)
      else .error .fault
    else .ok (s.setLock p ((s.proc p).lock.taken c), .allocLook p)
  | .allocLook p =>
    if (s.proc p).state = .unused then .ok (s, .allocClear p .state) else .ok (s, .allocRelease p)
  | .allocRelease p => do
    (s.proc p).lock.releaseCheck c
    let s := s.setLock p (s.proc p).lock.released
    if h : p.index.val + 1 < nproc then return (s, .allocTry ⟨p.cont, ⟨p.index.val + 1, h⟩⟩)
    else .error .fault
  | .allocClear p field => .ok (s.setProc p ((s.proc p).clear field), field.next p)
  | .allocState p => .ok (s.setState p .embryo, .initAcquire p)
  | .initAcquire p => do
    (s.proc p).lock.acquireCheck c
    if (s.proc p).lock.locked then .error .wait
    else return (s.setLock p ((s.proc p).lock.taken c), .initContext p)
  | .initContext p =>
    .ok (s.setProc p { s.proc p with context := some (.process p (.kernel .ready)) }, .initRelease p)
  | .initRelease p => do
    (s.proc p).lock.releaseCheck c
    return (s.setLock p (s.proc p).lock.released, .startAcquire p)
  | .startAcquire p => do
    (s.proc p).lock.acquireCheck c
    if (s.proc p).lock.locked then .error .wait
    else return (s.setLock p ((s.proc p).lock.taken c), .startState p)
  | .startState p => .ok (s.setState p .runnable, .startRelease p)
  | .startRelease p => do
    (s.proc p).lock.releaseCheck c
    return (s.setLock p (s.proc p).lock.released, .ready)

variable [DecidableEq χ]

/-- A step of the code that makes a process or calls `wakeup`, with what it decides on. -/
def kernelAct (s : SchedSystem κ χ) (c : Nat) :
    KernelPc κ → SchedAct κ χ → Except Stop (SchedSystem κ χ × KernelPc κ)
  | .ready, .wakeup p chan =>
    if (s.proc p).state = .sleeping ∧ (s.proc p).chan = some chan then .ok (s, .wake p)
    else .ok (s, .ready)
  | .ready, .alloc => .ok (s, .allocTry ⟨(s.cpu c).scheduler, 0⟩)
  | pc, .go => s.kernelStep c pc
  | _, _ => .error .wait

/-- One step of the process `p`, on the CPU `c`. The spinlock that `sleep` may be given is not among
those of the process tables. -/
def processStep (T : SchedTree κ) (s : SchedSystem κ χ) (c : Nat) (p : ProcPtr κ) :
    ProcPc κ χ → SchedAct κ χ → Except Stop (SchedSystem κ χ)
  | .setState q pause, .go =>
    .ok ((s.setState q pause.state).setCode c (.process p (pause.next q)))
  | .setChan q chan, .go =>
    .ok ((s.setProc q { s.proc q with chan := some chan }).setCode c (.process p (.sched false)))
  | .sched exit, .go =>
    schedSimple T s c (.process p (if exit then .dead else .kernel .ready))
  | .dead, .go => .error (.panic "ERROR: ZOMBIE trying return from exit")
  | .kernel .ready, .pause pause =>
    match (s.cpu c).proc with
    | none => .error .fault
    | some q => .ok (s.setCode c (.process p (.setState q pause)))
  | .kernel pc, a => do
    let r ← s.kernelAct c pc a
    return r.1.setCode c (.process p (.kernel r.2))
  | _, _ => .error .wait

/-- One step of a CPU. An act that does not fit the place where its code is waits. -/
def step (T : SchedTree κ) (s : SchedSystem κ χ) (a : Nat × SchedAct κ χ) :
    Except Stop (SchedSystem κ χ) :=
  match (s.cpu a.1).code, a.2 with
  | .scheduler this pc, .go => s.schedulerStep T a.1 this pc
  | .entry .ready, .enter =>
    .ok (s.setCode a.1 (.scheduler (s.cpu a.1).scheduler (.next 0)))
  | .entry pc, act => do
    let r ← s.kernelAct a.1 pc act
    return r.1.setCode a.1 (.entry r.2)
  | .process p pc, act => s.processStep T a.1 p pc act
  | _, _ => .error .wait

/-- The containers are set up, nothing else is, and every CPU is in `main`. The schedulers of
containers have a context on every CPU, in which they begin. -/
structure Boot (T : SchedTree κ) (s : SchedSystem κ χ) : Prop where
  proc : ∀ k p, T.p k = some p → (s.proc p).isScheduler = true ∧ (s.proc p).cont = some k ∧
    (s.proc p).state = .runnable
  other : ∀ p, (∀ k, T.p k ≠ some p) → (s.proc p).isScheduler = false
  context : ∀ p, (s.proc p).context = none
  entry : ∀ k c, s.context k c = if k = T.root then none else some (.entry .ready)
  cpu : ∀ c, s.cpu c = ⟨T.root, none, .entry .ready⟩

/-- The store to `lock.cpu` in `memset` is to a lock that is free. `lock.locked` is cleared before
it, so that another CPU may have taken the lock in between. -/
def ClearsFreeLock (s : SchedSystem κ χ) (a : Nat × SchedAct κ χ) : Prop :=
  ∀ z ∈ (s.cpu a.1).code.clearing, z.2 = .lockCpu → (s.proc z.1).lock.locked = false

instance (s : SchedSystem κ χ) (a : Nat × SchedAct κ χ) : Decidable (s.ClearsFreeLock a) :=
  inferInstanceAs (Decidable (∀ z ∈ (s.cpu a.1).code.clearing, _))

/-- The states that the CPUs bring about. -/
def Reaches (T : SchedTree κ) (s₀ : SchedSystem κ χ) : SchedSystem κ χ → Prop :=
  StepsOf (step T) (fun _ _ => True) s₀

/-- The states that the CPUs bring about while no lock is taken in the middle of `memset`. -/
def ReachesUndisturbed (T : SchedTree κ) (s₀ : SchedSystem κ χ) : SchedSystem κ χ → Prop :=
  StepsOf (step T) ClearsFreeLock s₀

end SchedSystem

/-! ## What a CPU executes -/

/-- The scheduler of `k` is run by way of the entry `p`, at once or through the schedulers
between. -/
inductive SchedTree.Under {κ : Type} (T : SchedTree κ) : κ → ProcPtr κ → Prop where
  | here {k : κ} {p : ProcPtr κ} (h : T.p k = some p) : Under T k p
  | up {k : κ} {p q : ProcPtr κ} (h : T.p k = some q) (hup : Under T q.cont p) : Under T k p

/-- The process that the code is, if it is one. The code of a scheduler or of a kernel function is
none. -/
def Code.user {κ χ : Type} : Code κ χ → Option (ProcPtr κ)
  | .process p _ => some p
  | _ => none

namespace CpuState

variable {κ χ : Type}

/-- The scheduler that the CPU is in: its own one for scheduler code, and that of the process table
for a process. -/
def level (u : CpuState κ χ) : κ :=
  match u.code with
  | .scheduler k _ => k
  | .entry _ => u.scheduler
  | .process p _ => p.cont

/-- The CPU executes the entry: it runs the process, or is in a scheduler that is run by way of
it. -/
def Executes (T : SchedTree κ) (u : CpuState κ χ) (p : ProcPtr κ) : Prop :=
  u.code.user = some p ∨ T.Under u.level p

/-- The CPU is in the scheduler of `k`, or in one that is run by way of it. -/
def Inside (T : SchedTree κ) (u : CpuState κ χ) (k : κ) : Prop :=
  k = u.level ∨ ∃ p, T.Under u.level p ∧ p.cont = k

end CpuState

/-- `memset` has not cleared `lock.locked` yet. It does so before `lock.cpu` and the name, and from
then on another CPU can take the lock. -/
def ProcField.underLock : ProcField → Bool
  | .lockCpu | .lockName | .bounding => false
  | _ => true

/-- The entry that code is about while it has its lock. While `memset` clears the entry, that is so
until it comes to `lock.locked`. -/
def KernelPc.locked {κ : Type} : KernelPc κ → Option (ProcPtr κ)
  | .allocLook p | .allocRelease p => some p
  | .allocClear p field => if field.underLock then some p else none
  | .initContext p | .initRelease p => some p
  | .startState p | .startRelease p => some p
  | _ => none

/-- The entry whose lock `scheduler_simple` has. It takes it before it looks at the state and gives
it up at the end of the turn, or after the process has come back. -/
def SchedPc.locked : SchedPc → Option (Fin nproc)
  | .bound i | .look i | .mark i | .dispatch i | .release i _ => some i
  | _ => none

/-- The entry whose lock the code has, besides those of the entries that the CPU executes. -/
def Code.locked {κ χ : Type} : Code κ χ → Option (ProcPtr κ)
  | .scheduler k pc => pc.locked.map fun i => ⟨k, i⟩
  | .entry pc => pc.locked
  | .process _ (.kernel pc) => pc.locked
  | .process _ _ => none

end KernelAarch64.Core
