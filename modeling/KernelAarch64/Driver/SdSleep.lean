import KernelAarch64.Core.Proc
import KernelAarch64.Driver.SdQueue
import Mathlib.Data.Fintype.Basic

/-!
# Waiting for the SD driver (`driver/sd.c`, `core/proc.c`)

`sdrw` gives up `sdlock` before it calls `sleep(b, NULL)`, and `sleep` sets `state` and `chan` one
after the other. `sd_intr` on another CPU may complete the request at any point between. Here each
of these is a step of its own, and the handler, which has `sdlock` all the time, fetches and
completes the requests one by one.

There are two invariants. `Inv` holds in all runs: a process waits for the request whose buffer it
passed to `sdrw`, and this one is pending until it is completed. `Awake` holds in the runs with
completions in time only: no process sleeps whose request is completed. `lostWakeup_iff` has both
directions; for the second, `Served.lost_of_unlocked` lets a process go to sleep after its wakeup.
-/

namespace KernelAarch64.Driver

open KernelAarch64.Lib KernelAarch64.Core

/-- Where a process is on its way through `sdrw`, from the release of `sdlock` on. `sleep(b, NULL)`
takes no lock, so each of its assignments is a step of its own. -/
inductive SdStage (β : Type) where
  | outside
  /-- `sdrw(b)` has released `sdlock`. -/
  | unlocked (b : β)
  /-- `sleep(b, NULL)` has set `state`. -/
  | marked (b : β)
  /-- `sleep(b, NULL)` has set `chan`. -/
  | parking (b : β)
  /-- It has switched to the scheduler. -/
  | switched (b : β)
  deriving Repr, DecidableEq

/-- A process that reads or writes blocks: its `state` and `chan`, how far its call is, and whether
the request was completed since. -/
structure SdUser (β : Type) where
  proc : Sleeper β
  stage : SdStage β
  /-- `sd_intr` has completed the request. -/
  done : Bool
  deriving Repr, DecidableEq

/-- Where `sd_intr` is. Between the completion of one request and the next `fetch_task` it still
holds `sdlock`, but a caller that has released the lock goes on meanwhile. -/
inductive SdHandler (β : Type) where
  /-- It does not run, and `sdlock` is free. -/
  | idle
  /-- The request `b` is fetched, and `command` has ended. -/
  | completing (command b : β)
  /-- It goes on with `fetch_task`. -/
  | fetching
  deriving Repr, DecidableEq

/-- The driver and the processes `π`. The queue and its history are those of `Driver.SdQueue`; the
steps of `sd_intr` are finer here, as wakeups fall between them. -/
structure SdSystem (β π : Type) where
  sd : SdQueue β
  handler : SdHandler β
  user : π → SdUser β

/-- What happens next: a process gets through `sdrw` to the release of `sdlock`, goes on in `sleep`,
is run by a scheduler, or the card and its handler go on. -/
inductive SdEvent (β π : Type) where
  /-- `sdrw(b)` up to the release of `sdlock`. -/
  | sdrw (p : π) (b : β) (flags : Nat) (seen : Bool)
  /-- `p->state = SLEEPING` -/
  | setState (p : π)
  /-- `p->chan = chan` -/
  | setChan (p : π)
  /-- `sched()` -/
  | sched (p : π)
  /-- A scheduler runs the process, and `sdrw` returns. -/
  | run (p : π)
  /-- The card raises its interrupt. -/
  | raise
  /-- `sd_intr` up to its first `sd_waitdone`. -/
  | sdIntr
  /-- `sd_waitdone(b)` -/
  | complete
  /-- A turn of the loop of `sd_intr`, or its end. -/
  | fetch
  deriving Repr, DecidableEq

/-- The buffer that `sdrw` was called with. It is also the channel on which the process sleeps,
`sleep(b, NULL)`. -/
def SdStage.buf {β : Type} : SdStage β → Option β
  | .outside => none
  | .unlocked b => some b
  | .marked b => some b
  | .parking b => some b
  | .switched b => some b

/-- The request that `sd_intr` has fetched and not completed. There is one at most, as `sd_intr`
serves them one after the other. -/
def SdHandler.pending {β : Type} : SdHandler β → Option β
  | .completing _ b => some b
  | _ => none

namespace SdSystem

variable {β π : Type} [DecidableEq β] [DecidableEq π]

/-- No request and no process in `sdrw`. -/
def empty (flags : β → Nat) : SdSystem β π :=
  ⟨SdQueue.empty flags, .idle, fun _ => ⟨⟨.running, none⟩, .outside, false⟩⟩

def setUser (s : SdSystem β π) (p : π) (u : SdUser β) : SdSystem β π :=
  { s with user := Function.update s.user p u }

/-- `wakeup(b)`: every process that sleeps on `b` is runnable. The mark `done` is for the statement:
it is set for the process whose request this is, awake or not. -/
def wakeup (s : SdSystem β π) (b : β) : SdSystem β π :=
  { s with user := fun p => { s.user p with
      proc := (s.user p).proc.wakeup b
      done := (s.user p).done || decide ((s.user p).stage.buf = some b) } }

/-- One step. A process that spins for `sdlock`, or that does not run, has none. `sched` and `run`
are two steps, and any other step may come in between. -/
def step (s : SdSystem β π) : SdEvent β π → Except Stop (SdSystem β π)
  | .sdrw p b flags seen =>
    match s.handler, (s.user p).stage with
    | .idle, .outside => do
      let sd ← { s.sd with flags := Function.update s.sd.flags b flags }.sdrw b seen
      return { s with sd := sd }.setUser p ⟨(s.user p).proc, .unlocked b, false⟩
    | _, _ => .error .wait
  | .setState p =>
    match (s.user p).stage with
    | .unlocked b => .ok (s.setUser p
        ⟨{ (s.user p).proc with state := .sleeping }, .marked b, (s.user p).done⟩)
    | _ => .error .wait
  | .setChan p =>
    match (s.user p).stage with
    | .marked b => .ok (s.setUser p
        ⟨{ (s.user p).proc with chan := some b }, .parking b, (s.user p).done⟩)
    | _ => .error .wait
  | .sched p =>
    match (s.user p).stage with
    | .parking b => .ok (s.setUser p { s.user p with stage := .switched b })
    | _ => .error .wait
  | .run p =>
    match (s.user p).stage with
    | .switched b =>
      if (s.user p).proc.state = .runnable then do
        asserts (s.sd.flags b &&& bValid ≠ 0) "b->flags & B_VALID"
          "flag should be valid after being waken."
        return s.setUser p { s.user p with
          proc := { (s.user p).proc with state := .running }, stage := .outside }
      else .error .wait
    | _ => .error .wait
  | .raise => (s.sd.step .raise).map fun sd => { s with sd := sd }
  | .sdIntr =>
    match s.handler, s.sd.interrupt, s.sd.inFlight with
    | .idle, true, command :: inFlight =>
      match s.sd.queue with
      | [] => .error .fault
      | b :: queue => do
        kassert (s.sd.flags b ≠ bValid) "b->flags != B_VALID"
        return { s with
          sd := { s.sd with inFlight := inFlight, queue := queue, interrupt := false }
          handler := .completing command b }
    | _, _, _ => .error .wait
  | .complete =>
    match s.handler with
    | .completing command b =>
      .ok ({ s with sd := s.sd.sdWaitdone command b, handler := .fetching }.wakeup b)
    | _ => .error .wait
  | .fetch =>
    match s.handler with
    | .fetching =>
      match s.sd.queue with
      | [] => do
        asserts (s.sd.interrupt = false) "!*EMMC_INTERRUPT" "[sd_intr] Interrupt should zero"
        return { s with handler := .idle }
      | b :: queue => do
        let sd ← { s.sd with queue := queue }.sdStart b
        return { s with sd := sd, handler := .completing b b }
    | _ => .error .wait

/-- How processes use the driver: a buffer is to be read or to be written, and is not pending. -/
def Allowed (s : SdSystem β π) : SdEvent β π → Prop
  | .sdrw _ b flags _ => (flags = 0 ∨ flags = bDirty) ∧ b ∉ s.sd.queue ∧ s.handler.pending ≠ some b
  | _ => True

instance (s : SdSystem β π) (a : SdEvent β π) : Decidable (s.Allowed a) := by
  induction a using SdEvent.casesOn <;> dsimp only [Allowed] <;> infer_instance

/-- The process has called `sdrw(b)`, its request is completed, and it sleeps on `b`. -/
def Lost (s : SdSystem β π) (p : π) (b : β) : Prop :=
  (s.user p).stage.buf = some b ∧ (s.user p).proc = ⟨.sleeping, some b⟩ ∧
    s.sd.flags b = bValid ∧ b ∉ s.sd.queue ∧ s.handler.pending ≠ some b

/-- `wakeup(b)` comes in time for the process that waits for `b`: it has set its `state`, and its
`chan` too unless it is runnable again. -/
def InTime (s : SdSystem β π) (b : β) : Prop :=
  ∀ p, (s.user p).stage.buf = some b → (s.user p).done = false →
    (s.user p).stage ≠ .unlocked b ∧
      ((s.user p).proc.state = .sleeping → (s.user p).proc.chan = some b)

/-- Each completion is in time: the process that waits for the buffer has set its `state` by then,
and its `chan` too unless it is runnable again. -/
def Careful (s : SdSystem β π) : SdEvent β π → Prop
  | .complete => ∀ b ∈ s.handler.pending, s.InTime b
  | _ => True

instance [Fintype π] (s : SdSystem β π) (a : SdEvent β π) : Decidable (s.Careful a) := by
  induction a using SdEvent.casesOn <;> dsimp only [Careful, InTime] <;> infer_instance

/-- The states that processes and the card bring about with steps allowed by `ok` as well. -/
def Reaches (ok : SdSystem β π → SdEvent β π → Prop) (flags : β → Nat) : SdSystem β π → Prop :=
  StepsOf step (fun s a => s.Allowed a ∧ ok s a) (empty flags)

variable {s t : SdSystem β π} {p : π} {b : β} {flags : β → Nat} {a : SdEvent β π}

/-! ## What a step does

One inversion lemma for each kind of step. Nothing after this section unfolds `step`. -/

/-- `sdrw` up to its release of `sdlock`: the request is at the end of the queue, and the process
has not gone to sleep yet. Nothing else has changed. -/
theorem step_sdrw {f : Nat} {seen : Bool} (h : s.step (.sdrw p b f seen) = .ok t)
    (hf : f = 0 ∨ f = bDirty) :
    s.handler = .idle ∧ (s.user p).stage = .outside ∧ ∃ sd : SdQueue β,
      sd.flags = Function.update s.sd.flags b f ∧ sd.queue = s.sd.queue ++ [b] ∧
        t = { s with sd := sd }.setUser p ⟨(s.user p).proc, .unlocked b, false⟩ := by
  rw [step] at h
  split at h
  · next hidle hout =>
    obtain ⟨sd, hsd, ht⟩ := bind_eq_ok.mp h
    cases ht
    obtain ⟨hflags, hqueue⟩ := SdQueue.sdrw_queue hsd
      ((congrArg (· ≠ bValid) (Function.update_self b f s.sd.flags)).mpr (SdQueue.not_valid hf).1)
    exact ⟨hidle, hout, sd, hflags, hqueue, rfl⟩
  · cases h

/-- The first assignment of `sleep`. -/
theorem step_setState (h : s.step (.setState p) = .ok t) : ∃ b, (s.user p).stage = .unlocked b ∧
    t = s.setUser p ⟨{ (s.user p).proc with state := .sleeping }, .marked b, (s.user p).done⟩ := by
  rw [step] at h
  split at h
  · next b hstage =>
    cases h
    exact ⟨b, hstage, rfl⟩
  · cases h

/-- The second assignment of `sleep`. -/
theorem step_setChan (h : s.step (.setChan p) = .ok t) : ∃ b, (s.user p).stage = .marked b ∧
    t = s.setUser p ⟨{ (s.user p).proc with chan := some b }, .parking b, (s.user p).done⟩ := by
  rw [step] at h
  split at h
  · next b hstage =>
    cases h
    exact ⟨b, hstage, rfl⟩
  · cases h

/-- The process leaves its CPU. -/
theorem step_sched (h : s.step (.sched p) = .ok t) : ∃ b, (s.user p).stage = .parking b ∧
    t = s.setUser p { s.user p with stage := .switched b } := by
  rw [step] at h
  split at h
  · next b hstage =>
    cases h
    exact ⟨b, hstage, rfl⟩
  · cases h

/-- The process runs again and returns. -/
theorem step_run (h : s.step (.run p) = .ok t) :
    t = s.setUser p { s.user p with
      proc := { (s.user p).proc with state := .running }, stage := .outside } := by
  rw [step] at h
  split at h
  · split at h
    · obtain ⟨-, -, ht⟩ := bind_eq_ok.mp h
      cases ht
      rfl
    · cases h
  · cases h

/-- The card raises its interrupt. -/
theorem step_raise (h : s.step .raise = .ok t) :
    t = { s with sd := { s.sd with interrupt := true } } := by
  rw [step, SdQueue.step] at h
  split at h
  · cases h
  · cases h
    rfl

/-- `sd_intr` takes the request at the head of the queue, and has its completion before it. The
flags are those from before. -/
theorem step_sdIntr (h : s.step .sdIntr = .ok t) : s.handler = .idle ∧
    ∃ command inFlight b queue, s.sd.queue = b :: queue ∧ t = { s with
      sd := { s.sd with inFlight := inFlight, queue := queue, interrupt := false }
      handler := .completing command b } := by
  rw [step] at h
  split at h
  · next command inFlight hidle _ _ =>
    split at h
    · cases h
    · next b queue hqueue =>
      obtain ⟨-, -, ht⟩ := bind_eq_ok.mp h
      cases ht
      exact ⟨hidle, command, inFlight, b, queue, hqueue, rfl⟩
  · cases h

/-- `sd_waitdone`, with its `wakeup`. -/
theorem step_complete (h : s.step .complete = .ok t) : ∃ command b,
    s.handler = .completing command b ∧
      t = { s with sd := s.sd.sdWaitdone command b, handler := .fetching }.wakeup b := by
  rw [step] at h
  split at h
  · next command b hhandler =>
    cases h
    exact ⟨command, b, hhandler, rfl⟩
  · cases h

/-- `sd_intr` goes on with the next request, which it starts and has in hand as well, or returns
when the queue is empty. -/
theorem step_fetch (h : s.step .fetch = .ok t) : s.handler = .fetching ∧
    (s.sd.queue = [] ∧ t = { s with handler := .idle } ∨
      ∃ b queue, s.sd.queue = b :: queue ∧ t = { s with
        sd := { s.sd with queue := queue, started := s.sd.started ++ [b] }
        handler := .completing b b }) := by
  rw [step] at h
  split at h
  · next hfetching =>
    split at h
    · next hqueue =>
      obtain ⟨-, -, ht⟩ := bind_eq_ok.mp h
      cases ht
      exact ⟨hfetching, .inl ⟨hqueue, rfl⟩⟩
    · next b queue hqueue =>
      obtain ⟨sd, hsd, ht⟩ := bind_eq_ok.mp h
      cases ht
      obtain ⟨-, -, hsd⟩ := bind_eq_ok.mp hsd
      obtain ⟨-, -, hsd⟩ := bind_eq_ok.mp hsd
      cases hsd
      exact ⟨hfetching, .inr ⟨b, queue, hqueue, rfl⟩⟩
  · cases h

/-! ## The invariant

`Waits` and `Awake` are about one process, so that a step of another one does not concern them. -/

end SdSystem

/-- A process waits for a request that is not completed, and when it is off its CPU `chan` is its
buffer. -/
structure SdUser.Waits {β : Type} (pending : β → Prop) (u : SdUser β) : Prop where
  pending : ∀ b, u.stage.buf = some b → u.done = false → pending b
  chan : ∀ b, u.stage = .parking b ∨ u.stage = .switched b → u.proc.chan = some b

theorem SdUser.Waits.mono {β : Type} {P Q : β → Prop} {u : SdUser β} (h : u.Waits P)
    (himp : ∀ b, P b → Q b) : u.Waits Q :=
  ⟨fun b hbuf hdone => himp b (h.pending b hbuf hdone), h.chan⟩

/-- The process goes on inside `sdrw`. -/
theorem SdUser.Waits.advance {β : Type} {P : β → Prop} {u v : SdUser β} (h : u.Waits P)
    (hbuf : v.stage.buf = u.stage.buf) (hdone : v.done = u.done)
    (hchan : ∀ b, v.stage = .parking b ∨ v.stage = .switched b → v.proc.chan = some b) :
    v.Waits P :=
  ⟨fun b hb hv => h.pending b (hbuf ▸ hb) (hdone ▸ hv), hchan⟩

/-- A process whose request is completed does not sleep and will not. -/
def SdUser.Awake {β : Type} (u : SdUser β) : Prop :=
  ∀ b, u.stage.buf = some b → u.done = true → u.stage ≠ .unlocked b ∧ u.proc.state ≠ .sleeping

namespace SdSystem

variable {β π : Type} [DecidableEq β] [DecidableEq π] {s t : SdSystem β π} {p : π} {b : β}
  {flags : β → Nat} {a : SdEvent β π}

/-- The request is queued, or `sd_intr` is about to complete it. -/
def Pending (s : SdSystem β π) (b : β) : Prop := b ∈ s.sd.queue ∨ s.handler.pending = some b

/-- Every process waits for a request of its own that is pending, and no request is pending twice.
-/
structure Inv (s : SdSystem β π) : Prop where
  nodup : s.sd.queue.Nodup
  fetched : ∀ b, s.handler.pending = some b → b ∉ s.sd.queue
  waits : ∀ p, (s.user p).Waits s.Pending

omit [DecidableEq β] in
@[simp] theorem setUser_self {u : SdUser β} : (s.setUser p u).user p = u :=
  Function.update_self p _ s.user

omit [DecidableEq β] in
/-- What holds of every process holds after a step of one of them. -/
theorem setUser_forall {P : SdUser β → Prop} {u : SdUser β} (h : ∀ q, P (s.user q)) (hu : P u)
    (q : π) : P ((s.setUser p u).user q) := by
  show P (Function.update s.user p u q)
  by_cases hq : q = p
  · rw [hq, Function.update_self]
    exact hu
  · rw [Function.update_of_ne hq]
    exact h q

omit [DecidableEq β] in
theorem Inv.setUser {u : SdUser β} (h : s.Inv) (hu : u.Waits s.Pending) : (s.setUser p u).Inv :=
  ⟨h.nodup, h.fetched, setUser_forall h.waits hu⟩

omit [DecidableEq β] [DecidableEq π] in
/-- Nobody waits at first. -/
theorem Inv.empty (flags : β → Nat) : (SdSystem.empty flags : SdSystem β π).Inv := by
  refine ⟨List.nodup_nil, ?_, ?_⟩
  · intro b hpending
    cases hpending
  · intro p
    constructor
    · intro b hbuf
      cases hbuf
    · intro b hstage
      rcases hstage with hstage | hstage <;> cases hstage

omit [DecidableEq β] [DecidableEq π] in
/-- `sd_intr` takes the request at the head of the queue. It stays pending until `wakeup`, now with
the handler instead of the queue. -/
theorem Inv.fetch {queue : List β} (h : s.Inv) (hqueue : s.sd.queue = b :: queue)
    (hnone : s.handler.pending = none) (ht : t.sd.queue = queue)
    (hsome : t.handler.pending = some b) (huser : t.user = s.user) : t.Inv := by
  have hnodup := h.nodup
  rw [hqueue] at hnodup
  obtain ⟨hout, hnodup⟩ := List.nodup_cons.mp hnodup
  refine ⟨ht ▸ hnodup, ?_, ?_⟩
  · intro x hx
    rw [hsome] at hx
    cases hx
    rw [ht]
    exact hout
  · intro p
    rw [huser]
    refine (h.waits p).mono ?_
    intro x hx
    rcases hx with hx | hx
    · rw [hqueue] at hx
      rcases List.mem_cons.mp hx with rfl | hx
      · exact .inr hsome
      · exact .inl (ht ▸ hx)
    · rw [hnone] at hx
      cases hx

omit [DecidableEq π] in
/-- The completed request is the one that is waited for no longer. -/
theorem Inv.complete {command : β} (h : s.Inv) (hhandler : s.handler = .completing command b) :
    ({ s with sd := s.sd.sdWaitdone command b, handler := .fetching }.wakeup b).Inv := by
  refine ⟨h.nodup, ?_, ?_⟩
  · intro x hx
    cases hx
  · intro p
    constructor
    · intro x hx hdone
      obtain ⟨hdone, hxb⟩ := Bool.or_eq_false_iff.mp hdone
      have hpending := (h.waits p).pending x hx hdone
      rcases hpending with hqueue | hpending
      · exact .inl hqueue
      · rw [hhandler] at hpending
        cases hpending
        exact absurd hx (of_decide_eq_false hxb)
    · intro x hx
      exact Sleeper.wakeup_chan.trans ((h.waits p).chan x hx)

/-- A new request is pending: it is at the end of the queue, and its process has a call under way
whose request is not done. -/
theorem Inv.sdrw {f : Nat} {seen : Bool} (h : s.Inv) (hok : s.Allowed (.sdrw p b f seen))
    (hstep : s.step (.sdrw p b f seen) = .ok t) : t.Inv := by
  obtain ⟨hidle, -, sd, -, hqueue, rfl⟩ := step_sdrw hstep hok.1
  have hsub : ∀ x ∈ s.sd.queue, x ∈ sd.queue := fun x hx => hqueue ▸ List.mem_append_left _ hx
  have hsd : ({ s with sd := sd } : SdSystem β π).Inv := by
    refine ⟨?_, ?_, fun q => (h.waits q).mono fun x hx => hx.imp_left (hsub x)⟩
    · show sd.queue.Nodup
      rw [hqueue, List.nodup_append]
      refine ⟨h.nodup, by simp, ?_⟩
      intro x hx y hy hxy
      obtain rfl := List.mem_singleton.mp hy
      exact hok.2.1 (hxy ▸ hx)
    · intro x hx
      rw [show (SdSystem.mk sd s.handler s.user).handler = .idle from hidle] at hx
      cases hx
  refine hsd.setUser ⟨?_, ?_⟩
  · intro x hx _
    cases hx
    refine .inl (?_ : b ∈ sd.queue)
    rw [hqueue]
    exact List.mem_append_right _ (List.mem_singleton.mpr rfl)
  · intro x hx
    rcases hx with hx | hx <;> cases hx

/-- The step lemma, one case for each event. A pending request belongs to a process that has not
been told yet, and every process with an open call has a request that is pending or done. -/
theorem Inv.step (h : s.Inv) (hok : s.Allowed a) (hstep : s.step a = .ok t) : t.Inv := by
  cases a with
  | sdrw p b f seen => exact h.sdrw hok hstep
  | setState p =>
    obtain ⟨b, hstage, rfl⟩ := step_setState hstep
    refine h.setUser ((h.waits p).advance (hstage ▸ rfl) rfl ?_)
    intro x hx
    rcases hx with hx | hx <;> cases hx
  | setChan p =>
    obtain ⟨b, hstage, rfl⟩ := step_setChan hstep
    refine h.setUser ((h.waits p).advance (hstage ▸ rfl) rfl ?_)
    intro x hx
    rcases hx with hx | hx <;> cases hx
    rfl
  | sched p =>
    obtain ⟨b, hstage, rfl⟩ := step_sched hstep
    refine h.setUser ((h.waits p).advance (hstage ▸ rfl) rfl ?_)
    intro x hx
    rcases hx with hx | hx <;> cases hx
    exact (h.waits p).chan b (.inl hstage)
  | run p =>
    obtain rfl := step_run hstep
    refine h.setUser ⟨fun x hx => (nomatch hx), ?_⟩
    intro x hx
    rcases hx with hx | hx <;> cases hx
  | raise =>
    obtain rfl := step_raise hstep
    exact ⟨h.nodup, h.fetched, h.waits⟩
  | sdIntr =>
    obtain ⟨hidle, command, inFlight, b, queue, hqueue, rfl⟩ := step_sdIntr hstep
    exact h.fetch hqueue (hidle ▸ rfl) rfl rfl rfl
  | complete =>
    obtain ⟨command, b, hhandler, rfl⟩ := step_complete hstep
    exact h.complete hhandler
  | fetch =>
    obtain ⟨hfetching, ⟨-, rfl⟩ | ⟨b, queue, hqueue, rfl⟩⟩ := step_fetch hstep
    · refine ⟨h.nodup, fun x hx => (nomatch hx), fun p => (h.waits p).mono ?_⟩
      intro x hx
      apply hx.imp_right
      intro hpending
      rw [hfetching] at hpending
      cases hpending
    · exact h.fetch hqueue (hfetching ▸ rfl) rfl rfl rfl

/-- A step in time wakes the process or finds it awake. The case that matters is `complete`: the
process sleeps with `chan` set, and `wakeup` makes it runnable, or it is runnable already. -/
theorem Awake.step (h : ∀ p, (s.user p).Awake) (hok : s.Allowed a)
    (hcareful : s.Careful a) (hstep : s.step a = .ok t) : ∀ p, (t.user p).Awake := by
  cases a with
  | sdrw p b f seen =>
    obtain ⟨-, -, sd, -, -, rfl⟩ := step_sdrw hstep hok.1
    apply setUser_forall (s := { s with sd := sd }) h
    intro x _ hdone
    cases hdone
  | setState p =>
    obtain ⟨b, hstage, rfl⟩ := step_setState hstep
    apply setUser_forall h
    intro x hx hdone
    cases hx
    -- A process whose request is done was past this point already.
    exact absurd hstage (h p b (hstage ▸ rfl) hdone).1
  | setChan p =>
    obtain ⟨b, hstage, rfl⟩ := step_setChan hstep
    apply setUser_forall h
    intro x hx hdone
    cases hx
    exact ⟨by simp, (h p b (hstage ▸ rfl) hdone).2⟩
  | sched p =>
    obtain ⟨b, hstage, rfl⟩ := step_sched hstep
    apply setUser_forall h
    intro x hx hdone
    cases hx
    exact ⟨by simp, (h p b (hstage ▸ rfl) hdone).2⟩
  | run p =>
    obtain rfl := step_run hstep
    apply setUser_forall h
    intro x hx
    cases hx
  | raise =>
    obtain rfl := step_raise hstep
    exact h
  | sdIntr =>
    obtain ⟨-, _, _, _, _, -, rfl⟩ := step_sdIntr hstep
    exact h
  | complete =>
    obtain ⟨command, b, hhandler, rfl⟩ := step_complete hstep
    intro p x hx hdone
    have hsleeping : ((s.user p).proc.wakeup b).state = .sleeping → _ := Sleeper.wakeup_sleeping
    -- Either the process was done before, or this is the completion of its request.
    cases hbefore : (s.user p).done with
    | true =>
      obtain ⟨hstage, hawake⟩ := h p x hx hbefore
      exact ⟨hstage, fun hs => hawake (hsleeping hs).1⟩
    | false =>
      have hxb : (s.user p).stage.buf = some b := of_decide_eq_true
        ((Bool.or_eq_true _ _).mp hdone |>.resolve_left (by rw [hbefore]; decide))
      obtain rfl : x = b := Option.some.inj (hx.symm.trans hxb)
      obtain ⟨hstage, htime⟩ := hcareful x (hhandler ▸ rfl) p hxb hbefore
      exact ⟨hstage, fun hs => (hsleeping hs).2 (htime (hsleeping hs).1)⟩
  | fetch =>
    obtain ⟨-, ⟨-, rfl⟩ | ⟨_, _, -, rfl⟩⟩ := step_fetch hstep
    · exact h
    · exact h

/-! ## Runs

From the invariants by induction, and the run that loses a wakeup. -/

/-- The invariant along a run. -/
theorem Reaches.inv {ok : SdSystem β π → SdEvent β π → Prop} (h : Reaches ok flags s) : s.Inv :=
  Steps.invariant h (Inv.empty flags) fun _ _ _ hs hok hstep => hs.step hok.1 hstep

/-- No process sleeps for a completed request, if the completions are in time. -/
theorem Reaches.awake (h : Reaches Careful flags s) (p : π) : (s.user p).Awake := by
  refine (Steps.invariant (I := fun s : SdSystem β π => s.Inv ∧ ∀ p, (s.user p).Awake) h
    ⟨Inv.empty flags, ?_⟩ ?_).2 p
  · intro p x hx
    cases hx
  · intro s t a hs hok hstep
    exact ⟨hs.1.step hok.1 hstep, Awake.step hs.2 hok.1 hok.2 hstep⟩

/-- The request for `b` is completed. -/
def Served (s : SdSystem β π) (b : β) : Prop :=
  s.sd.flags b = bValid ∧ b ∉ s.sd.queue ∧ s.handler.pending ≠ some b

/-- Steps that are allowed and in time. -/
def CarefulSteps : SdSystem β π → SdSystem β π → Prop :=
  StepsOf step fun s a => s.Allowed a ∧ s.Careful a

/-- The process was woken before it has set `chan`: `wakeup` has not found it, and it goes to sleep.
-/
theorem Served.lost_of_marked (h : s.Served b) (hstage : (s.user p).stage = .marked b)
    (hstate : (s.user p).proc.state = .sleeping) : ∃ t, CarefulSteps s t ∧ t.Lost p b := by
  have hstep : s.step (.setChan p) = .ok (s.setUser p
      ⟨{ (s.user p).proc with chan := some b }, .parking b, (s.user p).done⟩) := by
    rw [step, hstage]
  refine ⟨_, Steps.head (a := .setChan p) ⟨trivial, trivial⟩ hstep (Steps.refl _), ?_⟩
  refine ⟨?_, ?_, h⟩
  · rw [setUser_self]
    rfl
  · rw [setUser_self]
    exact congrArg (Sleeper.mk · (some b)) hstate

/-- The process was woken before it has set `state`, and then goes to sleep. -/
theorem Served.lost_of_unlocked (h : s.Served b) (hstage : (s.user p).stage = .unlocked b) :
    ∃ t, CarefulSteps s t ∧ t.Lost p b := by
  have hstep : s.step (.setState p) = .ok (s.setUser p
      ⟨{ (s.user p).proc with state := .sleeping }, .marked b, (s.user p).done⟩) := by
    rw [step, hstage]
  obtain ⟨t, ht, hlost⟩ := Served.lost_of_marked (p := p)
    (s := s.setUser p ⟨{ (s.user p).proc with state := .sleeping }, .marked b, (s.user p).done⟩)
    h (by rw [setUser_self]) (by rw [setUser_self])
  exact ⟨t, Steps.head (a := .setState p) ⟨trivial, trivial⟩ hstep ht, hlost⟩

/-- A process that has yet to go to sleep on `b`, when the request is completed, never hears of it:
it goes on to set `state` and `chan`, and by then nobody is left to wake it. The steps that lead
there are given. -/
theorem lost_of_late (hinv : s.Inv) (hpending : s.handler.pending = some b) (hlate : ¬s.InTime b)
    (hstep : s.step .complete = .ok t) : ∃ p u, CarefulSteps t u ∧ u.Lost p b := by
  obtain ⟨command, c, hhandler, rfl⟩ := step_complete hstep
  obtain rfl : c = b := by
    rw [hhandler] at hpending
    exact Option.some.inj hpending
  have hserved : ({ s with sd := s.sd.sdWaitdone command c, handler := .fetching }.wakeup c :
      SdSystem β π).Served c := by
    refine ⟨?_, hinv.fetched c hpending, fun h => nomatch h⟩
    show Function.update s.sd.flags c bValid c = bValid
    exact Function.update_self ..
  simp only [InTime, not_forall] at hlate
  obtain ⟨p, hbuf, hdone, hlate⟩ := hlate
  refine ⟨p, ?_⟩
  by_cases hunlocked : (s.user p).stage = .unlocked c
  · exact hserved.lost_of_unlocked hunlocked
  · have hsleeps : (s.user p).proc.state = .sleeping ∧ (s.user p).proc.chan ≠ some c := by
      by_contra hsleeps
      refine hlate ⟨hunlocked, fun hstate => ?_⟩
      by_contra hchan
      exact hsleeps ⟨hstate, hchan⟩
    have hmarked : (s.user p).stage = .marked c := by
      have hchan := (hinv.waits p).chan c
      cases hstage : (s.user p).stage <;> rw [hstage] at hbuf hunlocked hchan <;> cases hbuf
      · exact absurd rfl hunlocked
      · rfl
      · exact absurd (hchan (.inl rfl)) hsleeps.2
      · exact absurd (hchan (.inr rfl)) hsleeps.2
    apply hserved.lost_of_marked hmarked
    show ((s.user p).proc.wakeup c).state = .sleeping
    rw [Sleeper.wakeup_of_ne fun h => hsleeps.2 h.2]
    exact hsleeps.1

/-- As long as each completion finds its process asleep or awake again, no wakeup is lost. One that
comes too early is, as soon as the process goes to sleep. -/
theorem lostWakeup_iff (flags : β → Nat) :
    (∀ s : SdSystem β π, Reaches Careful flags s → ∀ p b, ¬s.Lost p b) ∧
    ∀ s t : SdSystem β π, Reaches (fun _ _ => True) flags s → ∀ b, s.handler.pending = some b →
      s.step .complete = .ok t → ¬s.InTime b → ∃ p u, CarefulSteps t u ∧ u.Lost p b := by
  refine ⟨?_, fun s t h b hpending hstep hlate => lost_of_late h.inv hpending hlate hstep⟩
  intro s h p b hlost
  obtain ⟨hbuf, hproc, -, hqueue, hhandler⟩ := hlost
  cases hdone : (s.user p).done with
  | true => exact (h.awake p b hbuf hdone).2 (hproc ▸ rfl)
  | false =>
    rcases (h.inv.waits p).pending b hbuf hdone with hpending | hpending
    · exact hqueue hpending
    · exact hhandler hpending

/-- The request is completed before the process has gone to sleep. -/
theorem sdrw_loses_wakeup : ∃ s : SdSystem Nat Unit,
    Reaches (fun _ _ => True) (fun _ => 0) s ∧ s.Lost () 1 := by
  obtain ⟨s, hrun, hlost⟩ : ∃ s, runList step (fun s a => s.Allowed a ∧ True)
      (empty fun _ : Nat => 0 : SdSystem Nat Unit)
      [.sdrw () 1 0 false, .raise, .sdIntr, .complete, .fetch, .setState (), .setChan (),
        .sched ()] = some s ∧ s.Lost () 1 :=
    ⟨_, rfl, rfl, rfl, rfl, by decide, by decide⟩
  exact ⟨s, StepsOf.of_runList hrun, hlost⟩

/-- A process that is asleep when its request is completed. -/
theorem lostWakeup_iff_asleep : ∃ s : SdSystem Nat Unit, Reaches Careful (fun _ => 0) s ∧
    (s.user ()).done = true ∧ ¬s.Lost () 1 := by
  obtain ⟨s, hrun, hdone⟩ : ∃ s, runList step (fun s a => s.Allowed a ∧ s.Careful a)
      (empty fun _ : Nat => 0 : SdSystem Nat Unit)
      [.sdrw () 1 0 false, .raise, .setState (), .setChan (), .sdIntr, .complete, .sched (),
        .fetch] = some s ∧ (s.user ()).done = true :=
    ⟨_, rfl, rfl⟩
  have hreach : Reaches Careful (fun _ => 0) s := StepsOf.of_runList hrun
  exact ⟨s, hreach, hdone, (lostWakeup_iff fun _ => 0).1 s hreach () 1⟩

end SdSystem

end KernelAarch64.Driver
