import KernelAarch64.Fs.Cache.System
import Mathlib.Logic.Function.Basic

/-!
# Threads and the locks of the block cache

`Fs.Cache.System` takes a call of the block cache as one step. Here a call is what its thread does
to the locks: `acquire_spinlock(&lock)`, the body of the function under `lock`, and
`release_spinlock(&lock)` are steps of their own, and the threads run in any interleaving. The body
of each call is the function of `Fs.Cache`. `acquire_sleeplock` is part of the body of
`cache_acquire`, which waits for it with `lock` in its hands. `cache_release` takes the sleep lock
back without `lock`.

In `cache_begin_op`, `sleep(&lock, &lock)` does what its comment says: it releases `lock`, and the
thread competes for it again after `wakeup(&lock)`. (`proc.c` takes `lock` a second time instead,
which panics; that is a run in which the thread makes no further step.)

`Machine.step` is the program of a thread read as a function: what it can do next, or nothing. All
proofs about it go through `Machine.Move`, which lists the steps with their guards, by
`move_of_step`. What a step of one thread means for the others is `Move.others`: at most they are
woken.
-/

namespace KernelAarch64.Fs

/-- The calls a thread makes to the block cache between `begin_op` and `end_op`, with the number of
the block they are about. -/
inductive Call where
  | beginOp
  | acquire (b : Nat)
  | sync (b : Nat)
  | release (b : Nat)
  | endOp
  deriving Repr, DecidableEq

/-- The call takes `lock`. -/
def Call.locks : Call → Bool
  | .release _ => false
  | _ => true

/-- Where a thread is in the first of its calls. The steps in between are where other threads may
come. -/
inductive Stage where
  /-- Before the call. -/
  | ready
  /-- In `acquire_spinlock(&lock)`. -/
  | spinning
  /-- In the body, with `lock`. In `cache_acquire` this is before `acquire_sleeplock` returns. -/
  | locked
  /-- After the body, before `release_spinlock(&lock)`. -/
  | leaving
  /-- In `sleep(&lock, &lock)`. -/
  | asleep
  deriving Repr, DecidableEq

/-- A thread: the calls it has not completed, and its operation context. The first of the calls is
the one it is in. -/
structure Thread where
  calls : List Call
  stage : Stage
  ctx : OpContext

/-- The effect of `wakeup(&lock)` on a thread. -/
def Thread.wakeup (th : Thread) : Thread :=
  if th.stage = .asleep then { th with stage := .spinning } else th

/-- The block cache, its locks and the threads that use it. `cache` has a flag for each sleep lock;
`holder` adds whose it is. -/
structure Machine (ι : Type) where
  /-- Who holds `lock`. -/
  lock : Option ι
  /-- Who holds the sleep lock of a block. -/
  holder : Nat → Option ι
  cache : Cache
  threads : ι → Thread

namespace Machine

variable {ι : Type} [DecidableEq ι]

/-- The threads before their first call, and the cache as `init_bcache` leaves it. Nobody holds a
lock. -/
def start (sb : SuperBlock) (disk : Disk) (programs : ι → List Call) : Machine ι where
  lock := none
  holder := fun _ => none
  cache := initBcache sb disk
  threads := fun t => ⟨programs t, .ready, ⟨0⟩⟩

/-- Thread `t` goes on as `th`. -/
def put (m : Machine ι) (t : ι) (th : Thread) : Machine ι :=
  { m with threads := Function.update m.threads t th }

/-- The body of a call by thread `t`: the function of `cache.c`, and for `acquire` and `release` the
holder of the sleep lock. -/
def body (sb : SuperBlock) (m : Machine ι) (t : ι) (ctx : OpContext) :
    Call → Except Stop (OpContext × Machine ι)
  | .beginOp => do
    let (ctx, cache) ← cacheBeginOp sb m.cache
    return (ctx, { m with cache := cache })
  | .acquire b => do
    let (_, cache) ← cacheAcquire b m.cache
    return (ctx, { m with cache := cache, holder := Function.update m.holder b (some t) })
  | .sync b => do
    let (ctx', cache) ← unsafeCacheSync (some ctx) b m.cache
    return (ctx'.getD ctx, { m with cache := cache })
  | .release b => do
    let cache ← cacheRelease b m.cache
    return (ctx, { m with cache := cache, holder := Function.update m.holder b none })
  | .endOp => do
    let cache ← cacheEndOp sb ctx m.cache
    return (ctx, { m with cache := cache, threads := fun u => (m.threads u).wakeup })

/-- The next step of thread `t`, or `none` if it cannot make one now: it has no call left, or it
waits for a lock that another thread holds. -/
def step (sb : SuperBlock) (m : Machine ι) (t : ι) : Option (Machine ι) :=
  let th := m.threads t
  match th.stage, th.calls with
  | .ready, [] => none
  | .ready, call :: calls =>
    if call.locks then some (m.put t { th with stage := .spinning })
    else
      match m.body sb t th.ctx call with
      | .ok (ctx, n) => some (n.put t ⟨calls, .ready, ctx⟩)
      | .error _ => none
  | .spinning, _ =>
    if m.lock = none then some ({ m with lock := some t }.put t { th with stage := .locked })
    else none
  | .locked, [] => none
  | .locked, call :: calls =>
    match m.body sb t th.ctx call with
    | .ok (ctx, n) => some (n.put t ⟨calls, .leaving, ctx⟩)
    | .error _ =>
      -- `cache_begin_op` stops at its `sleep(&lock, &lock)` only
      if call = .beginOp then some ({ m with lock := none }.put t { th with stage := .asleep })
      else none
  | .leaving, _ => some ({ m with lock := none }.put t { th with stage := .ready })
  | .asleep, _ => none

/-- The run in which the threads make steps in the order of `schedule`. -/
def run (sb : SuperBlock) (m : Machine ι) : List ι → Option (Machine ι)
  | [] => some m
  | t :: schedule => (m.step sb t).bind fun n => n.run sb schedule

variable {sb : SuperBlock} {m n : Machine ι} {t : ι}

/-! ## What one step does

Each constructor is a way on from one stage to the next. The body of a call is a single step: under
`lock` nobody else changes what it reads, and `cache_release`, which does not take `lock`, only
gives back a sleep lock. -/

/-- The steps of a thread, one constructor for each: what must hold for it, and what it leaves. The
proofs go by these cases and not by the text of `step`. -/
inductive Move (sb : SuperBlock) (m : Machine ι) (t : ι) : Machine ι → Prop
  | call {call : Call} {calls : List Call} (hstage : (m.threads t).stage = .ready)
      (hcalls : (m.threads t).calls = call :: calls) (hlocks : call.locks = true) :
      Move sb m t (m.put t { m.threads t with stage := .spinning })
  | release {b : Nat} {calls : List Call} {cache : Cache} (hstage : (m.threads t).stage = .ready)
      (hcalls : (m.threads t).calls = .release b :: calls)
      (hbody : cacheRelease b m.cache = .ok cache) :
      Move sb m t ({ m with cache := cache, holder := Function.update m.holder b none }.put t
        ⟨calls, .ready, (m.threads t).ctx⟩)
  | lock (hstage : (m.threads t).stage = .spinning) (hfree : m.lock = none) :
      Move sb m t ({ m with lock := some t }.put t { m.threads t with stage := .locked })
  | body {call : Call} {calls : List Call} {ctx : OpContext} {n : Machine ι}
      (hstage : (m.threads t).stage = .locked) (hcalls : (m.threads t).calls = call :: calls)
      (hbody : m.body sb t (m.threads t).ctx call = .ok (ctx, n)) :
      Move sb m t (n.put t ⟨calls, .leaving, ctx⟩)
  | sleep {calls : List Call} (hstage : (m.threads t).stage = .locked)
      (hcalls : (m.threads t).calls = .beginOp :: calls) :
      Move sb m t ({ m with lock := none }.put t { m.threads t with stage := .asleep })
  | unlock (hstage : (m.threads t).stage = .leaving) :
      Move sb m t ({ m with lock := none }.put t { m.threads t with stage := .ready })

/-- Every step of the machine is one of these moves. The cases of `step` that make no step are gone,
and the proof follows the stages. -/
theorem move_of_step (h : m.step sb t = some n) : m.Move sb t n := by
  unfold step at h
  cases hstage : (m.threads t).stage with
  | ready =>
    cases hcalls : (m.threads t).calls with
    | nil => simp [hstage, hcalls] at h
    | cons call calls =>
      simp only [hstage, hcalls] at h
      by_cases hlocks : call.locks = true
      · rw [if_pos hlocks] at h
        cases h
        simpa only [hcalls] using Move.call hstage hcalls hlocks
      · rw [if_neg hlocks] at h
        cases call with
        | release b =>
          split at h
          · next ctx n' hbody =>
            cases h
            simp only [Machine.body, bind_eq_ok] at hbody
            obtain ⟨cache, hrel, hbody⟩ := hbody
            cases hbody
            exact .release hstage hcalls hrel
          · cases h
        | _ => exact absurd rfl hlocks
  -- It gets `lock` as soon as nobody has it.
  | spinning =>
    simp only [hstage] at h
    split at h
    · next hfree =>
      cases h
      exact .lock hstage hfree
    · cases h
  | locked =>
    cases hcalls : (m.threads t).calls with
    | nil => simp [hstage, hcalls] at h
    | cons call calls =>
      simp only [hstage, hcalls] at h
      split at h
      · next ctx n' hbody =>
        cases h
        exact .body hstage hcalls hbody
      · split at h
        · next hcall =>
          subst hcall
          cases h
          rw [← hcalls]
          exact .sleep hstage hcalls
        · cases h
  | leaving =>
    simp only [hstage] at h
    cases h
    exact .unlock hstage
  | asleep => simp [hstage] at h

@[simp] theorem put_lock (m : Machine ι) (t : ι) (th : Thread) : (m.put t th).lock = m.lock := rfl

@[simp] theorem put_holder (m : Machine ι) (t : ι) (th : Thread) :
    (m.put t th).holder = m.holder := rfl

@[simp] theorem put_cache (m : Machine ι) (t : ι) (th : Thread) :
    (m.put t th).cache = m.cache := rfl

@[simp] theorem put_self (m : Machine ι) (t : ι) (th : Thread) : (m.put t th).threads t = th := by
  simp [put]

@[simp] theorem put_of_ne (m : Machine ι) {t u : ι} (hu : u ≠ t) (th : Thread) :
    (m.put t th).threads u = m.threads u := by
  simp [put, hu]

theorem wakeup_calls (th : Thread) : th.wakeup.calls = th.calls := by
  unfold Thread.wakeup
  split <;> rfl

/-- `wakeup` makes a sleeping thread compete for `lock` again, and leaves the others. -/
theorem wakeup_stage (th : Thread) :
    th.wakeup.stage = th.stage ∨ th.stage = .asleep ∧ th.wakeup.stage = .spinning := by
  unfold Thread.wakeup
  split
  · next h => exact .inr ⟨h, rfl⟩
  · exact .inl rfl

omit [DecidableEq ι] in
/-- What the body of a call may change: the cache, the sleep lock the call is about, and the
threads that sleep. -/
theorem body_frame {call : Call} {ctx ctx' : OpContext}
    (h : m.body sb t ctx call = .ok (ctx', n)) :
    n.lock = m.lock ∧ (n.threads = m.threads ∨ n.threads = fun u => (m.threads u).wakeup) := by
  cases call <;> simp only [body, bind_eq_ok] at h <;> obtain ⟨_, -, h⟩ := h <;> cases h <;>
    exact ⟨rfl, by simp⟩

/-- A step leaves the other threads where they are, up to waking them. -/
theorem Move.others (h : m.Move sb t n) {u : ι} (hu : u ≠ t) :
    (n.threads u).calls = (m.threads u).calls ∧
      ((n.threads u).stage = (m.threads u).stage ∨
        (m.threads u).stage = .asleep ∧ (n.threads u).stage = .spinning) := by
  cases h with
  | body hstage hcalls hbody =>
    rw [put_of_ne _ hu]
    rcases (body_frame hbody).2 with heq | heq
    · simp [heq]
    · rw [heq]
      exact ⟨wakeup_calls _, wakeup_stage _⟩
  | _ =>
    rw [put_of_ne _ hu]
    exact ⟨rfl, .inl rfl⟩

end Machine

end KernelAarch64.Fs
