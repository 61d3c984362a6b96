import KernelAarch64.Driver.Sd
import KernelAarch64.Lib.Steps

/-!
# The request queue of the SD driver (`driver/sd.c`, `driver/buf.c`)

`sdrw` starts the card if no request is queued and puts its buffer into the queue; `sd_intr`
finishes the request at the head of the queue, which is the one the card works on, and then starts
and finishes the others. Both run under `sdlock`, so each of them is one step here. Callers on any
number of CPUs are any sequence of steps.

What goes over the wires is in `Driver.Sd`. Here the card is a list of commands under way, whose
polled waits succeed, and a buffer is its address `β` with its `flags`.

`Orderly` is the invariant of the runs. Its step lemma has a case for each of the three kinds of
step; the one for `sd_intr` needs the loop `sd_intr` ends with in closed form (`sdDrain_of`).
-/

namespace KernelAarch64.Driver

open KernelAarch64.Lib

/-- A request is done: which command has ended, which buffer `sd_waitdone` was called with, and the
flags it left. -/
structure Completion (β : Type) where
  command : β
  buf : β
  flags : Nat
  deriving Repr, DecidableEq

/-- The queue, the card, and what happened so far. Three lists keep the history: the requests as
they were submitted, the commands as they were sent, and what each completion found. -/
structure SdQueue (β : Type) where
  flags : β → Nat
  /-- From `head.next` on. -/
  queue : List β
  /-- The commands that `sdrw` started and whose interrupt has not been handled. -/
  inFlight : List β
  /-- `*EMMC_INTERRUPT` is not zero. -/
  interrupt : Bool
  /-- The buffers `sdrw` put into the queue. -/
  submitted : List β
  /-- The buffers `sd_start` was called with. -/
  started : List β
  completed : List (Completion β)

/-- What happens: a caller fills `flags`, calls `sdrw`, sees `*EMMC_INTERRUPT` and gets `sdlock`;
the card ends a command and raises its interrupt; a CPU takes the interrupt. -/
inductive SdStep (β : Type) where
  | sdrw (b : β) (flags : Nat) (seen : Bool)
  | raise
  | sdIntr
  deriving Repr, DecidableEq

namespace SdQueue

variable {β : Type} [DecidableEq β]

/-- No request. -/
def empty (flags : β → Nat) : SdQueue β := ⟨flags, [], [], false, [], [], []⟩

/-- `sd_start(b, Transfer)`, of either kind: both assertions, and the command goes to the card. What
is transferred is not followed here, only which request the card works on. -/
def sdStart (s : SdQueue β) (b : β) : Except Stop (SdQueue β) := do
  asserts (s.flags b &&& bValid = 0) "!(b->flags & B_VALID)" "valid buf should not be here."
  asserts (s.interrupt = false) "!*EMMC_INTERRUPT"
    "emmc interrupt flag should be empty: 0x%x. "
  return { s with started := s.started ++ [b] }

/-- `sd_waitdone(b)`, less the `wakeup`, when `command` has ended: `b` is marked as done whatever
the command was for, so the history records both. -/
def sdWaitdone (s : SdQueue β) (command b : β) : SdQueue β :=
  { s with
    flags := Function.update s.flags b bValid
    completed := s.completed ++ [⟨command, b, bValid⟩] }

/-- The part of `sdrw` that starts the card when `try_fetch_task` finds no request. A request that
is started here stays in the queue until `sd_intr` fetches it. -/
def startIfIdle (s : SdQueue β) (b : β) : Except Stop (SdQueue β) :=
  if s.queue = [] then do
    let s ← s.sdStart b
    return { s with inFlight := s.inFlight ++ [b] }
  else .ok s

/-- `add_task(b)` -/
def addTask (s : SdQueue β) (b : β) : SdQueue β :=
  { s with queue := s.queue ++ [b], submitted := s.submitted ++ [b] }

/-- `sdrw(b)` up to its `sleep`. It looks at `*EMMC_INTERRUPT` before it takes `sdlock`, so what it
saw there may have changed since. -/
def sdrw (s : SdQueue β) (b : β) (seen : Bool) : Except Stop (SdQueue β) := do
  asserts (seen = false) "!*EMMC_INTERRUPT"
    "emmc interrupt flag should be empty: 0x%x. "
  if s.flags b = bValid then return s
  else
    let s ← s.startIfIdle b
    return s.addTask b

/-- The loop of `sd_intr`: the rest of the queue is fetched, started and finished. It recurses over
the queue, which nobody else changes, as `sdlock` is held throughout. -/
def sdDrain : List β → SdQueue β → Except Stop (SdQueue β)
  | [], s => .ok s
  | b :: queue, s => do
    let s ← { s with queue := queue }.sdStart b
    sdDrain queue (s.sdWaitdone b b)

/-- `sd_intr`, when `command` has ended. The first request was started by the `sdrw` that found the
queue empty; all later ones are started by the loop. -/
def sdIntr (s : SdQueue β) (command : β) : Except Stop (SdQueue β) :=
  match s.queue with
  -- `b->flags` of the `NULL` that `fetch_task` returns
  | [] => .error .fault
  | b :: queue => do
    kassert (s.flags b ≠ bValid) "b->flags != B_VALID"
    let s ← sdDrain queue ({ s with queue := queue, interrupt := false }.sdWaitdone command b)
    asserts (s.interrupt = false) "!*EMMC_INTERRUPT" "[sd_intr] Interrupt should zero"
    return s

/-- One step: a critical section under `sdlock` as a whole, or the card. The card interrupts when a
command has ended, and `sd_intr` then gets the oldest command in flight. -/
def step (s : SdQueue β) : SdStep β → Except Stop (SdQueue β)
  | .sdrw b flags seen => { s with flags := Function.update s.flags b flags }.sdrw b seen
  | .raise => if s.inFlight = [] then .error .wait else .ok { s with interrupt := true }
  | .sdIntr =>
    match s.interrupt, s.inFlight with
    | true, command :: inFlight => { s with inFlight := inFlight }.sdIntr command
    | _, _ => .error .wait

/-- How callers use the driver: a buffer is to be read or to be written, and is not pending. -/
def Allowed (s : SdQueue β) : SdStep β → Prop
  | .sdrw b flags _ => (flags = 0 ∨ flags = bDirty) ∧ b ∉ s.queue
  | _ => True

instance (s : SdQueue β) (a : SdStep β) : Decidable (s.Allowed a) := by
  induction a using SdStep.casesOn <;> dsimp only [Allowed] <;> infer_instance

/-- The states that callers and the card can bring about. -/
def Reaches (flags : β → Nat) : SdQueue β → Prop := StepsOf step Allowed (empty flags)

/-! ## The invariant

`inFlight` and the logs are there for the statements. The code itself sees the flags, the queue and
the interrupt. -/

/-- The card works on the head of the queue and on nothing else, and requests are served in the
order of their submission. -/
structure Orderly (s : SdQueue β) : Prop where
  inFlight : s.inFlight = s.queue.head?.toList
  interrupt : s.interrupt = true → s.inFlight ≠ []
  flags : ∀ b ∈ s.queue, s.flags b = 0 ∨ s.flags b = bDirty
  nodup : s.queue.Nodup
  submitted : s.submitted = s.completed.map Completion.buf ++ s.queue
  started : s.started = s.completed.map Completion.buf ++ s.inFlight
  completed : ∀ x ∈ s.completed, x.command = x.buf ∧ x.flags = bValid

variable {s t : SdQueue β} {b : β} {flags : β → Nat}

/-- Flags of a request that is not served yet. -/
theorem not_valid {f : Nat} (h : f = 0 ∨ f = bDirty) : f ≠ bValid ∧ f &&& bValid = 0 := by
  rcases h with rfl | rfl <;> decide

omit [DecidableEq β] in
theorem Orderly.empty (flags : β → Nat) : (SdQueue.empty flags).Orderly := by
  constructor <;> simp [SdQueue.empty]

omit [DecidableEq β] in
/-- `sd_start` passes its asserts. -/
theorem sdStart_of (hflags : s.flags b = 0 ∨ s.flags b = bDirty) (hint : s.interrupt = false) :
    s.sdStart b = .ok { s with started := s.started ++ [b] } := by
  rw [sdStart, asserts, if_pos (not_valid hflags).2, asserts, if_pos hint]
  rfl

/-- The loop of `sd_intr` starts and finishes each request that is left, in order. By induction on
the queue: each turn marks one buffer as valid, and as the queue has no buffer twice the others are
still to be served. -/
theorem sdDrain_of (hflags : ∀ b ∈ s.queue, s.flags b = 0 ∨ s.flags b = bDirty)
    (hnodup : s.queue.Nodup) (hint : s.interrupt = false) :
    sdDrain s.queue s = .ok { s with
      flags := fun b => if b ∈ s.queue then bValid else s.flags b
      queue := []
      started := s.started ++ s.queue
      completed := s.completed ++ s.queue.map fun b => ⟨b, b, bValid⟩ } := by
  generalize hqueue : s.queue = queue at hflags hnodup ⊢
  induction queue generalizing s with
  | nil =>
    obtain ⟨f, q, inFlight, interrupt, submitted, started, completed⟩ := s
    cases hqueue
    simp [sdDrain]
  | cons b queue ih =>
    obtain ⟨hout, hnodup'⟩ := List.nodup_cons.mp hnodup
    have hstart : { s with queue := queue }.sdStart b =
        .ok { s with queue := queue, started := s.started ++ [b] } :=
      sdStart_of (hflags b List.mem_cons_self) hint
    have hrest := ih (s := { s with queue := queue, started := s.started ++ [b] }.sdWaitdone b b)
      hint rfl (fun x hx => ?_) hnodup'
    swap
    · have hxb : x ≠ b := fun hxb => hout (hxb ▸ hx)
      rw [sdWaitdone]
      dsimp only
      rw [Function.update_of_ne hxb]
      exact hflags x (List.mem_cons_of_mem _ hx)
    rw [sdDrain, hstart, ok_bind, hrest]
    congr 1
    simp only [sdWaitdone, List.append_assoc, List.singleton_append, List.map_cons, mk.injEq,
      and_true]
    funext x
    by_cases hxb : x = b
    · subst hxb
      simp
    · simp [hxb]

/-- `sd_intr` finishes the request at the head of the queue, which is under way already, and then
all others. The state afterwards is written out, and the invariant of it follows in
`Orderly.sdIntr`. -/
theorem Orderly.step_sdIntr {queue : List β} (h : s.Orderly) (hint : s.interrupt = true)
    (hqueue : s.queue = b :: queue) :
    s.step .sdIntr = .ok { s with
      flags := fun x => if x ∈ s.queue then bValid else s.flags x
      queue := []
      inFlight := []
      interrupt := false
      started := s.started ++ queue
      completed := s.completed ++ s.queue.map fun b => ⟨b, b, bValid⟩ } := by
  have hcommand : s.inFlight = [b] := by
    rw [h.inFlight, hqueue]
    rfl
  have hnodup := h.nodup
  have hflags := h.flags
  rw [hqueue] at hnodup hflags
  obtain ⟨hout, hnodup⟩ := List.nodup_cons.mp hnodup
  have hvalid : s.flags b ≠ bValid := (not_valid (hflags b List.mem_cons_self)).1
  -- the state in which the loop of `sd_intr` begins
  have hdrain := sdDrain_of
    (s := { s with inFlight := [], queue := queue, interrupt := false }.sdWaitdone b b)
    (fun x hx => ?_) hnodup rfl
  swap
  · have hxb : x ≠ b := fun hxb => hout (hxb ▸ hx)
    show Function.update s.flags b bValid x = 0 ∨ Function.update s.flags b bValid x = bDirty
    rw [Function.update_of_ne hxb]
    exact hflags x (List.mem_cons_of_mem _ hx)
  rw [step, hint, hcommand]
  dsimp only
  rw [SdQueue.sdIntr]
  simp only [hqueue]
  rw [kassert, if_pos hvalid, ok_bind]
  refine (congrArg (· >>= _) hdrain).trans ?_
  show Except.ok _ = Except.ok _
  simp only [sdWaitdone, List.append_assoc, List.map_cons, List.singleton_append, Except.ok.injEq,
    mk.injEq, and_true]
  funext x
  by_cases hxb : x = b
  · subst hxb
    simp
  · simp [hxb]

omit [DecidableEq β] in
/-- When the card has interrupted there is a request at the head of the queue. -/
theorem Orderly.queue_of_interrupt (h : s.Orderly) (hint : s.interrupt = true) :
    ∃ b queue, s.queue = b :: queue := by
  have hflight := h.interrupt hint
  rw [h.inFlight] at hflight
  cases hqueue : s.queue with
  | nil => simp [hqueue] at hflight
  | cons b queue => exact ⟨b, queue, rfl⟩

/-- `sd_intr` leaves an empty queue, and every request done. The command that has ended is that of
the head of the queue, which is why the right buffer is marked. -/
theorem Orderly.sdIntr (h : s.Orderly) (hint : s.interrupt = true) :
    ∃ t, s.step .sdIntr = .ok t ∧ t.Orderly ∧ t.queue = [] ∧ t.submitted = s.submitted := by
  obtain ⟨b, queue, hqueue⟩ := h.queue_of_interrupt hint
  refine ⟨_, h.step_sdIntr hint hqueue, ?_, rfl, rfl⟩
  constructor
  case inFlight => rfl
  case interrupt => exact fun hint => nomatch hint
  case flags => exact fun x hx => nomatch hx
  case nodup => exact List.nodup_nil
  case submitted =>
    show s.submitted = (s.completed ++ _).map Completion.buf ++ []
    rw [h.submitted, List.map_append, List.map_map, List.append_nil]
    congr 1
    exact (List.map_id _).symm
  case started =>
    show s.started ++ queue = (s.completed ++ _).map Completion.buf ++ []
    rw [h.started, h.inFlight, hqueue, List.map_append, List.map_map, List.append_nil,
      List.append_assoc]
    congr 1
    exact (List.map_id _).symm
  case completed =>
    intro x hx
    rcases List.mem_append.mp hx with hx | hx
    · exact h.completed x hx
    · obtain ⟨b, -, rfl⟩ := List.mem_map.mp hx
      exact ⟨rfl, rfl⟩

/-- A submission that returns puts its buffer at the end of the queue, and starts it when it is
alone there. A valid buffer and a raised interrupt are what the assertions keep out. -/
theorem Orderly.step_sdrw {f : Nat} {seen : Bool} (h : s.Orderly) (hf : f = 0 ∨ f = bDirty)
    (hstep : s.step (.sdrw b f seen) = .ok t) :
    t = { s with
      flags := Function.update s.flags b f
      queue := s.queue ++ [b]
      inFlight := if s.queue = [] then [b] else s.inFlight
      submitted := s.submitted ++ [b]
      started := if s.queue = [] then s.started ++ [b] else s.started } := by
  have hset : Function.update s.flags b f b = f := Function.update_self b f s.flags
  rw [step, SdQueue.sdrw] at hstep
  obtain ⟨-, -, hstep⟩ := bind_eq_ok.mp hstep
  simp only [hset, if_neg (not_valid hf).1] at hstep
  obtain ⟨u, hstart, hadd⟩ := bind_eq_ok.mp hstep
  cases hadd
  rw [startIfIdle] at hstart
  by_cases hempty : s.queue = []
  · have hflight : s.inFlight = [] := by
      rw [h.inFlight, hempty]
      rfl
    have hint : s.interrupt = false := by
      by_contra hint
      exact h.interrupt (Bool.eq_true_of_not_eq_false hint) hflight
    have hcall := sdStart_of (s := { s with flags := Function.update s.flags b f }) (b := b)
      (by dsimp only; rwa [hset]) hint
    rw [if_pos hempty, hcall] at hstart
    cases hstart
    simp [addTask, hempty, hflight]
  · rw [if_neg hempty] at hstart
    cases hstart
    simp [addTask, hempty]

/-- A submission keeps the order: the queue is what was submitted and not completed, oldest first,
and the only command in flight is that of its head. -/
theorem Orderly.sdrw {f : Nat} {seen : Bool} (h : s.Orderly) (hf : f = 0 ∨ f = bDirty)
    (hb : b ∉ s.queue) (hstep : s.step (.sdrw b f seen) = .ok t) : t.Orderly := by
  obtain rfl := h.step_sdrw hf hstep
  have hinFlight := h.inFlight
  have hstarted := h.started
  constructor
  case inFlight =>
    cases hqueue : s.queue with
    | nil => simp
    | cons c queue => simp [hqueue, hinFlight]
  case interrupt =>
    intro hint hnil
    dsimp only at hnil
    split at hnil
    · cases hnil
    · exact h.interrupt hint hnil
  case flags =>
    intro x hx
    show Function.update s.flags b f x = 0 ∨ Function.update s.flags b f x = bDirty
    rcases List.mem_append.mp hx with hx | hx
    · have hxb : x ≠ b := fun hxb => hb (hxb ▸ hx)
      rw [Function.update_of_ne hxb]
      exact h.flags x hx
    · obtain rfl := List.mem_singleton.mp hx
      rw [Function.update_self]
      exact hf
  case nodup =>
    show (s.queue ++ [b]).Nodup
    rw [List.nodup_append]
    refine ⟨h.nodup, by simp, ?_⟩
    intro x hx y hy hxy
    obtain rfl := List.mem_singleton.mp hy
    exact hb (hxy ▸ hx)
  case submitted =>
    show s.submitted ++ [b] = s.completed.map Completion.buf ++ (s.queue ++ [b])
    rw [h.submitted, List.append_assoc]
  case started =>
    cases hqueue : s.queue with
    | nil => simpa [hqueue, hinFlight] using hstarted
    | cons c queue => simpa [hqueue] using hstarted
  case completed => exact h.completed

/-- The card raises its interrupt for a command that is under way. -/
theorem Orderly.raise (h : s.Orderly) (hstep : s.step .raise = .ok t) : t.Orderly := by
  rw [step] at hstep
  split at hstep
  · cases hstep
  · next hflight =>
    cases hstep
    exact ⟨h.inFlight, fun _ => hflight, h.flags, h.nodup, h.submitted, h.started, h.completed⟩

omit [DecidableEq β] in
/-- A submission leaves the buffer at the end of the queue, whatever the card does. -/
theorem sdrw_queue {seen : Bool} (h : s.sdrw b seen = .ok t) (hflags : s.flags b ≠ bValid) :
    t.flags = s.flags ∧ t.queue = s.queue ++ [b] := by
  rw [SdQueue.sdrw] at h
  obtain ⟨-, -, h⟩ := bind_eq_ok.mp h
  rw [if_neg hflags] at h
  obtain ⟨u, hstart, hadd⟩ := bind_eq_ok.mp h
  cases hadd
  rw [startIfIdle] at hstart
  split at hstart
  · obtain ⟨v, hv, hu⟩ := bind_eq_ok.mp hstart
    cases hu
    obtain ⟨-, -, hv⟩ := bind_eq_ok.mp hv
    obtain ⟨-, -, hv⟩ := bind_eq_ok.mp hv
    cases hv
    exact ⟨rfl, rfl⟩
  · cases hstart
    exact ⟨rfl, rfl⟩

/-! ## Runs

A step is a whole section under `sdlock`, and any order of these is a run. -/

/-- The step lemma: each section under `sdlock`, like the interrupt itself, keeps the queue in
order, and the transfer on the way is that of its head. -/
theorem Orderly.step (h : s.Orderly) {a : SdStep β} (hok : s.Allowed a)
    (hstep : s.step a = .ok t) : t.Orderly := by
  cases a with
  | sdrw b f seen => exact h.sdrw hok.1 hok.2 hstep
  | raise => exact h.raise hstep
  | sdIntr =>
    have hint : s.interrupt = true := by
      by_contra hint
      rw [SdQueue.step, Bool.eq_false_of_not_eq_true hint] at hstep
      cases hstep
    obtain ⟨u, hu, horderly, -⟩ := h.sdIntr hint
    rw [hu] at hstep
    cases hstep
    exact horderly

/-- The invariant along a run. -/
theorem Reaches.orderly (h : Reaches flags s) : s.Orderly :=
  Steps.invariant h (Orderly.empty flags) fun _ _ _ hs hok hstep => hs.step hok hstep

/-- The card is at work if and only if requests are queued, and then on the request at the head of
the queue alone. A handler that runs finds a request and finishes all of them. Each request is
started once and done once, with valid data, in the order of submission. -/
theorem Reaches.queue_protocol (h : Reaches flags s) :
    (s.queue ≠ [] ↔ s.inFlight.length = 1) ∧
    (∀ b ∈ s.inFlight, s.queue.head? = some b) ∧
    (s.interrupt = true → ∃ t, s.step .sdIntr = .ok t ∧ t.queue = [] ∧
      t.completed.map Completion.buf = s.submitted) ∧
    s.submitted = s.completed.map Completion.buf ++ s.queue ∧
    s.started = s.completed.map Completion.buf ++ s.inFlight ∧
    ∀ x ∈ s.completed, x.command = x.buf ∧ x.flags = bValid := by
  have horderly := h.orderly
  refine ⟨?_, ?_, ?_, horderly.submitted, horderly.started, horderly.completed⟩
  · rw [horderly.inFlight]
    cases s.queue <;> simp
  · intro b hb
    rw [horderly.inFlight] at hb
    exact Option.mem_toList.mp hb
  · intro hint
    obtain ⟨t, hstep, ht, hqueue, hsub⟩ := horderly.sdIntr hint
    refine ⟨t, hstep, hqueue, ?_⟩
    have hdone := ht.submitted
    rw [hqueue, List.append_nil, hsub] at hdone
    exact hdone.symm

/-- Two requests, the second while the card works on the first, and the handler. -/
theorem queue_protocol_two : ∃ s : SdQueue Nat, Reaches (fun _ => 0) s ∧
    s.submitted = [1, 2] ∧ s.queue = [1, 2] ∧ s.inFlight = [1] ∧ s.interrupt = true ∧
    (s.interrupt = true → ∃ t, s.step .sdIntr = .ok t ∧ t.queue = [] ∧
      t.completed.map Completion.buf = s.submitted) := by
  obtain ⟨s, hrun, hs⟩ : ∃ s, runList step Allowed (empty fun _ : Nat => 0)
      [.sdrw 1 0 false, .sdrw 2 bDirty false, .raise] = some s ∧
      s.submitted = [1, 2] ∧ s.queue = [1, 2] ∧ s.inFlight = [1] ∧ s.interrupt = true :=
    ⟨_, rfl, rfl, rfl, rfl, rfl⟩
  have hreach : Reaches (fun _ => 0) s := StepsOf.of_runList hrun
  exact ⟨s, hreach, hs.1, hs.2.1, hs.2.2.1, hs.2.2.2, (Reaches.queue_protocol hreach).2.2.1⟩

end SdQueue

end KernelAarch64.Driver
