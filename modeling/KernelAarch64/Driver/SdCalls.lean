import KernelAarch64.Driver.SdSleep
import Mathlib.Algebra.BigOperators.Group.Finset.Piecewise

/-!
# Calls through the block device (`fs/block_device.c`, `driver/sd.c`)

Processes call `sd_read` and `sd_write` at any time; the buffers, the flags and the controller are
those of `Driver.Sd`, and the steps of a caller and of `sd_intr` interleave as in `Driver.SdSleep`.

What one step does is said once, by one lemma for each kind of step: it keeps the invariant and
lowers the work that is left, or it is not possible yet. The main result, `sdCalls_roundTrip`,
collects them over runs. A call with `B_DIRTY | B_VALID`, as `sd_write` makes it, panics in
`sd_start`, so its runs are those of `sd_read`.

`Inv` is the invariant of a run. For each call it says where its request is (`Phase`): in the queue
with its flags untouched, with `sd_intr` and about to be completed, or completed with the block in
the buffer. There is one lemma for each kind of step, and each of them says three things at once
(`Advances`): the step is possible, it keeps `Inv`, and it lowers `work`. So from any state of a run
there are steps that let all calls return (`Inv.progress`), and there is no way to go on forever
without new calls. `sdCalls_roundTrip` puts this together; `sd_write_panics` is what happens to a
write.
-/

namespace KernelAarch64.Driver

open KernelAarch64.Lib KernelAarch64.Fs KernelAarch64.Core

/-- The address of a buffer, which is a local variable of the process that calls `sd_read` or
`sd_write`: whose stack it is on, and where. -/
abbrev BufAddr (π : Type) : Type := π × Nat

/-- A process and its last call. The request stays after the return of the call; `stage` says
whether it is still on its way. -/
structure SdCall (β : Type) where
  proc : Sleeper β
  stage : SdStage β
  request : Request
  /-- What it is to deliver: the block as the calls made before it leave it. -/
  expected : Option BlockData

/-- Where `sd_intr` is. It holds `sdlock` from its first step to its last, so no caller gets between
them, but the steps of `sleep`, which take no lock, do. -/
inductive SdServe (β : Type) where
  /-- It does not run, and `sdlock` is free. -/
  | idle
  /-- The transfer of `b` is made, and `sd_waitdone(b)` comes next. -/
  | completing (b : β)
  /-- It goes on with `fetch_task`. -/
  | fetching
  deriving DecidableEq

/-- The request whose transfer is made: its `sd_waitdone` is the next step of `sd_intr`. -/
def SdServe.pending {β : Type} : SdServe β → Option β
  | .completing b => some b
  | _ => none

/-- A call that has returned, with what it was to deliver at the time it was made and what it did
deliver. -/
structure SdReturn where
  request : Request
  expected : Option BlockData
  result : Option BlockData

/-- The driver, its controller, and the processes `π`. `written` and `log` are for the statement
only: no step of the code reads them. -/
structure SdCalls (π : Type) where
  emmc : Emmc
  /-- From `head.next` on. -/
  queue : List (BufAddr π)
  buf : BufAddr π → Buf
  handler : SdServe (BufAddr π)
  call : π → SdCall (BufAddr π)
  /-- What the card holds when the calls made so far are served in order. -/
  written : Nat → BlockData
  log : List SdReturn

/-- What happens next: a step of one caller, of the card or of `sd_intr`. Any of them may come at
any time at which it is possible. -/
inductive SdMove (π : Type) where
  /-- `p` calls `sd_read` or `sd_write`, with its buffer at `x`, saw `*EMMC_INTERRUPT` set or not,
  and gets `sdlock`: `sdrw` up to its release. -/
  | sdrw (p : π) (x : Nat) (r : Request) (seen : Bool)
  /-- `p->state = SLEEPING` -/
  | setState (p : π)
  /-- `p->chan = chan` -/
  | setChan (p : π)
  /-- `sched()` -/
  | sched (p : π)
  /-- A scheduler runs the process, and its call returns. -/
  | run (p : π)
  /-- The card raises the bits that are due. -/
  | raise
  /-- `sd_intr` up to its first `sd_waitdone`. -/
  | sdIntr
  /-- `sd_waitdone(b)` -/
  | complete
  /-- A turn of the loop of `sd_intr`, or its end. -/
  | fetch

/-- A process makes a call. -/
def SdMove.IsCall {π : Type} : SdMove π → Prop
  | .sdrw _ _ _ _ => True
  | _ => False

namespace SdCalls

variable {π : Type} [DecidableEq π]

/-- No request, and no process in `sdrw`. The buffers hold anything: `sd_read` and `sd_write` set up
their own before they call. -/
def idle (type : SdType) (card : Nat → BlockData) (buf : BufAddr π → Buf) (request : Request) :
    SdCalls π where
  emmc := Emmc.quiet type card
  queue := []
  buf := buf
  handler := .idle
  call _ := ⟨⟨.running, none⟩, .outside, request, none⟩
  written := card
  log := []

/-- An assignment to the record of a process. -/
def setCall (s : SdCalls π) (p : π) (c : SdCall (BufAddr π)) : SdCalls π :=
  { s with call := Function.update s.call p c }

/-- An assignment to a buffer. -/
def setBuf (s : SdCalls π) (b : BufAddr π) (x : Buf) : SdCalls π :=
  { s with buf := Function.update s.buf b x }

/-- `sdrw` returns, and what `b` holds is delivered. -/
def deliver (s : SdCalls π) (r : Request) (expected : Option BlockData) (b : Buf) : SdCalls π :=
  { s with log := s.log ++ [⟨r, expected, r.result b⟩] }

/-- `wakeup(b)` -/
def wakeup (s : SdCalls π) (b : BufAddr π) : SdCalls π :=
  { s with call := fun p => { s.call p with proc := (s.call p).proc.wakeup b } }

/-- One step. A process that spins for `sdlock`, or that does not run, has none: the step is
`.wait`. A failed assertion is `.panic`, and an interrupt without a request dereferences `NULL`. -/
def step (s : SdCalls π) : SdMove π → Except Stop (SdCalls π)
  | .sdrw p x r seen =>
    match s.handler, (s.call p).stage with
    | .idle, .outside => do
      asserts (seen = false) "!*EMMC_INTERRUPT" "emmc interrupt flag should be empty: 0x%x. "
      if r.buf.flags = bValid then return s.deliver r (r.expected s.written) r.buf
      else
        let (emmc, buf) ← startIfIdle s.emmc s.queue r.buf
        return ({ s with
          emmc := emmc
          queue := s.queue ++ [(p, x)]
          written := r.written s.written }.setBuf (p, x) buf).setCall p
            ⟨(s.call p).proc, .unlocked (p, x), r, r.expected s.written⟩
    | _, _ => .error .wait
  | .setState p =>
    match (s.call p).stage with
    | .unlocked b => .ok (s.setCall p { s.call p with
        proc := { (s.call p).proc with state := .sleeping }, stage := .marked b })
    | _ => .error .wait
  | .setChan p =>
    match (s.call p).stage with
    | .marked b => .ok (s.setCall p { s.call p with
        proc := { (s.call p).proc with chan := some b }, stage := .parking b })
    | _ => .error .wait
  | .sched p =>
    match (s.call p).stage with
    | .parking b => .ok (s.setCall p { s.call p with stage := .switched b })
    | _ => .error .wait
  | .run p =>
    match (s.call p).stage with
    | .switched b =>
      if (s.call p).proc.state = .runnable then do
        asserts ((s.buf b).flags &&& bValid ≠ 0) "b->flags & B_VALID"
          "flag should be valid after being waken."
        return (s.deliver (s.call p).request (s.call p).expected (s.buf b)).setCall p { s.call p with
          proc := { (s.call p).proc with state := .running }, stage := .outside }
      else .error .wait
    | _ => .error .wait
  | .raise => if s.emmc.pending = 0 then .error .wait else .ok { s with emmc := s.emmc.raise }
  | .sdIntr =>
    match s.handler with
    | .idle =>
      if s.emmc.interrupt = 0 then .error .wait
      else
        match s.queue with
        -- `b->flags` of the `NULL` that `fetch_task` returns
        | [] => .error .fault
        | b :: queue => do
          kassert ((s.buf b).flags ≠ bValid) "b->flags != B_VALID"
          let (emmc, buf) ← transferRead s.emmc (s.buf b)
          return { s with emmc := emmc, queue := queue, handler := .completing b }.setBuf b buf
    | _ => .error .wait
  | .complete =>
    match s.handler with
    | .completing b => do
      let (emmc, buf) ← sdWaitdone s.emmc (s.buf b)
      return ({ s with emmc := emmc, handler := .fetching }.setBuf b buf).wakeup b
    | _ => .error .wait
  | .fetch =>
    match s.handler with
    | .fetching =>
      match s.queue with
      | [] => do
        asserts (s.emmc.interrupt = 0) "!*EMMC_INTERRUPT" "[sd_intr] Interrupt should zero"
        return { s with handler := .idle }
      | b :: queue => do
        let (emmc, buf) ← sdStart s.emmc (s.buf b) true
        return { s with emmc := emmc, queue := queue, handler := .completing b }.setBuf b buf
    | _ => .error .wait

/-- The block numbers of the calls fit into the 32 bits of `blockno`. The calls may come from any
process at any time. -/
def Allowed : SdMove π → Prop
  | .sdrw _ _ r _ => r.blockNo < 2 ^ 32
  | _ => True

/-- Calls read blocks that the card can address, nobody enters `sdrw` while an interrupt is raised,
and the process that waits for a request has gone to sleep on it, or is awake again, when the
request is completed. -/
def Careful (s : SdCalls π) : SdMove π → Prop
  | .sdrw _ _ r seen => seen = false ∧ r.IsRead ∧ (s.emmc.type = .type2HC ∨ r.blockNo < 2 ^ 23)
  | .complete => ∀ b ∈ s.handler.pending, (s.call b.1).stage ≠ .unlocked b ∧
      ((s.call b.1).proc.state = .sleeping → (s.call b.1).proc.chan = some b)
  | _ => True

instance (r : Request) : Decidable r.IsRead := by
  cases r <;> dsimp only [Request.IsRead] <;> infer_instance

instance (s : SdCalls π) (a : SdMove π) : Decidable (Allowed a ∧ s.Careful a) := by
  induction a using SdMove.casesOn <;> dsimp only [Allowed, Careful] <;> infer_instance

/-- Runs of steps that are allowed and careful. -/
def Run : SdCalls π → SdCalls π → Prop := StepsOf step fun s a => Allowed a ∧ s.Careful a

/-! ## Requests that read

Only these can be served: the buffer of `sd_write` is dirty and valid, and `sd_start` panics on a
valid one. -/

end SdCalls

variable {type : SdType} {card : Nat → BlockData}

/-- The call reads a block that the card can address. -/
def Request.Reads (type : SdType) (r : Request) : Prop :=
  r.IsRead ∧ r.blockNo < 2 ^ 32 ∧ (type = .type2HC ∨ r.blockNo < 2 ^ 23)

/-- The buffer of a read is neither dirty nor valid. -/
theorem Request.Reads.flags {r : Request} (h : r.Reads type) : r.buf.flags = 0 := by
  cases r with
  | read n junk => rfl
  | write n buffer => exact h.1.elim

/-- Serving a read leaves the card as it is and the block in the buffer, which is valid. -/
theorem Request.Reads.serve {r : Request} (h : r.Reads type) (card : Nat → BlockData) :
    (serve type card r.buf).1 = card ∧ (Driver.serve type card r.buf).2.flags = bValid ∧
      r.result (Driver.serve type card r.buf).2 = some (card r.blockNo) := by
  cases r with
  | write n buffer => exact h.1.elim
  | read n junk =>
    obtain ⟨-, hlt, haddr⟩ := h
    change n < 2 ^ 32 at hlt
    change type = .type2HC ∨ n < 2 ^ 23 at haddr
    have hblock : cardBlock type (.ofNat n) = n := by
      rw [cardBlock_ofNat hlt]
      rcases haddr with htype | hn
      · exact if_pos htype
      · split
        · rfl
        · exact Nat.mod_eq_of_lt hn
    rw [serve_read, hblock]
    exact ⟨rfl, rfl, rfl⟩

/-- The controller is as `e₀`, and what is due there may be raised already. -/
def Emmc.Raised (e₀ e : Emmc) : Prop := e = e₀ ∨ e = e₀.raise

/-- The interrupt is raised, or it was already. -/
theorem Emmc.Raised.raise {e₀ e : Emmc} (h : e₀.Raised e) (hpending : e.pending ≠ 0) :
    e₀.Raised e.raise := by
  rcases h with rfl | rfl
  · exact .inr rfl
  · exact absurd rfl hpending

/-- The interrupt does not change the type of the card. -/
theorem Emmc.Raised.type_eq {e₀ e : Emmc} (h : e₀.Raised e) : e.type = e₀.type := by
  rcases h with rfl | rfl <;> rfl

namespace SdCalls

variable {π : Type} [DecidableEq π] {s t : SdCalls π} {p : π} {b : BufAddr π}
  {c : SdCall (BufAddr π)}

/-! ## The invariant

The controller is in one of few states, which `sd_intr` and the head of the queue determine. -/

/-- The controller, by what `sd_intr` does and by what is at the head of the queue. Where a command
runs, its next interrupt may be raised already or may be still to come. -/
def EmmcFits (type : SdType) (card : Nat → BlockData) (s : SdCalls π) : Prop :=
  match s.handler, s.queue with
  | .idle, [] => s.emmc = Emmc.quiet type card
  | .idle, b :: _ => (started type card (s.buf b)).Raised s.emmc
  | .completing _, _ => (Emmc.moved type card).Raised s.emmc
  | .fetching, _ => s.emmc = Emmc.quiet type card

/-- Where the request `b` of a call is. As long as it is not completed the process has yet to go to
sleep or sleeps; then it has been woken. -/
inductive Phase (type : SdType) (card : Nat → BlockData) (s : SdCalls π)
    (c : SdCall (BufAddr π)) (b : BufAddr π) : Prop
  | queued (hqueue : b ∈ s.queue) (hbuf : s.buf b = c.request.buf)
      (hwait : c.stage = .unlocked b ∨ c.proc.state = .sleeping)
  | transferred (hhandler : s.handler = .completing b)
      (hbuf : s.buf b = filled type card c.request.buf)
      (hwait : c.stage = .unlocked b ∨ c.proc.state = .sleeping)
  | served (hqueue : b ∉ s.queue) (hhandler : s.handler ≠ .completing b)
      (hbuf : s.buf b = (serve type card c.request.buf).2) (hstage : c.stage ≠ .unlocked b)
      (hstate : c.proc.state = .runnable)

/-- What holds of a process. `chan` keeps its value after a call, so it is only known to be a buffer
of the process, except where `sleep` has set it. -/
structure Fits (type : SdType) (card : Nat → BlockData) (s : SdCalls π) (p : π)
    (c : SdCall (BufAddr π)) : Prop where
  own : ∀ b, c.stage.buf = some b → b.1 = p
  chanOwn : ∀ b, c.proc.chan = some b → b.1 = p
  chan : ∀ b, c.stage = .parking b ∨ c.stage = .switched b → c.proc.chan = some b
  reads : ∀ b, c.stage.buf = some b →
    c.request.Reads type ∧ c.expected = some (card c.request.blockNo)
  phase : ∀ b, c.stage.buf = some b → s.Phase type card c b

/-- The queue has the request of each call once, and what was delivered is right. The card itself
never changes, as these runs only read. -/
structure Inv (type : SdType) (card : Nat → BlockData) (s : SdCalls π) : Prop where
  nodup : s.queue.Nodup
  fetched : ∀ b, s.handler = .completing b → b ∉ s.queue
  owner : ∀ b, b ∈ s.queue ∨ s.handler = .completing b → (s.call b.1).stage.buf = some b
  written : s.written = card
  log : ∀ x ∈ s.log, x.result = x.expected
  emmc : s.EmmcFits type card
  calls : ∀ p, s.Fits type card p (s.call p)

/-! ## The work that is left

A bound for the number of steps until all is quiet. A step of a process counts one; a request counts
what `sd_intr` will have to do for it. -/

end SdCalls

/-- The steps of its own that a call has left: the assignments to `state` and to `chan`, the switch
to the scheduler, and the run that returns. -/
def SdStage.work {β : Type} : SdStage β → Nat
  | .outside => 0
  | .unlocked _ => 4
  | .marked _ => 3
  | .parking _ => 2
  | .switched _ => 1

/-- A bound for the steps that `sd_intr` has left until it looks at the queue again: the card raises
`INT_DATA_DONE`, `sd_waitdone` follows, and then `fetch_task`. -/
def SdServe.work {β : Type} : SdServe β → Nat
  | .idle => 0
  | .completing _ => 4
  | .fetching => 1

namespace SdCalls

variable {π : Type} [DecidableEq π] [Fintype π] {s t : SdCalls π} {p : π} {b : BufAddr π}
  {c : SdCall (BufAddr π)}

/-- A bound for the steps to come if there is no new call. Every step but a new call takes something
away from it. -/
def work (s : SdCalls π) : Nat :=
  (∑ p, (s.call p).stage.work) + 6 * s.queue.length + s.handler.work +
    if s.emmc.pending = 0 then 0 else 1

/-- The step is possible, keeps the invariant and lowers the work. -/
def Advances (type : SdType) (card : Nat → BlockData) (s : SdCalls π) (a : SdMove π) : Prop :=
  ∃ t, s.step a = .ok t ∧ t.Inv type card ∧ t.work < s.work

/-- The work after a step of one process: only the summand of that process changes. The equation is
an addition on both sides, which spares the subtraction. -/
theorem work_setCall : (s.setCall p c).work + (s.call p).stage.work = s.work + c.stage.work := by
  have hcomp : (fun q => (Function.update s.call p c q).stage.work) =
      Function.update (fun q => (s.call q).stage.work) p c.stage.work := by
    funext q
    by_cases hq : q = p
    · subst hq
      simp
    · simp [hq]
  have hnew : ∑ q, (Function.update s.call p c q).stage.work =
      c.stage.work + ∑ q ∈ Finset.univ \ {p}, (s.call q).stage.work := by
    rw [hcomp]
    exact Finset.sum_update_of_mem (Finset.mem_univ p) _ _
  have hold : ∑ q, (s.call q).stage.work =
      (s.call p).stage.work + ∑ q ∈ Finset.univ \ {p}, (s.call q).stage.work :=
    Finset.sum_eq_add_sum_sdiff_singleton_of_mem (Finset.mem_univ p) _
  unfold work setCall
  dsimp only
  rw [hnew, hold]
  omega

/-! ## Steps of a caller

From the release of `sdlock` to the return of `sdrw`: `sleep` sets `state`, then `chan`, and
switches to the scheduler; the process runs again when it is runnable. -/

omit [Fintype π] [DecidableEq π] in
/-- Nothing happens to a buffer that is neither put into the queue nor taken from it. -/
theorem Phase.untouched (h : s.Phase type card c b) (hqueue : b ∈ t.queue ↔ b ∈ s.queue)
    (hhandler : t.handler = .completing b ↔ s.handler = .completing b)
    (hbuf : t.buf b = s.buf b) : t.Phase type card c b := by
  cases h with
  | queued hmem hb hwait => exact .queued (hqueue.mpr hmem) (hbuf.trans hb) hwait
  | transferred hcompleting hb hwait =>
    exact .transferred (hhandler.mpr hcompleting) (hbuf.trans hb) hwait
  | served hmem hcompleting hb hstage hstate =>
    exact .served (mt hqueue.mp hmem) (mt hhandler.mp hcompleting) (hbuf.trans hb) hstage hstate

omit [Fintype π] [DecidableEq π] in
/-- The process that has set its `state` goes on, asleep or awake as it is. -/
theorem Phase.goOn {d : SdCall (BufAddr π)} (h : s.Phase type card c b)
    (hpast : c.stage ≠ .unlocked b) (hrequest : d.request = c.request)
    (hstate : d.proc.state = c.proc.state) (hstage : d.stage ≠ .unlocked b) :
    s.Phase type card d b := by
  cases h with
  | queued hmem hbuf hwait =>
    have hsleeping := hwait.resolve_left hpast
    exact .queued hmem (hrequest ▸ hbuf) (.inr (hstate.trans hsleeping))
  | transferred hhandler hbuf hwait =>
    have hsleeping := hwait.resolve_left hpast
    exact .transferred hhandler (hrequest ▸ hbuf) (.inr (hstate.trans hsleeping))
  | served hmem hhandler hbuf _ hrunnable =>
    exact .served hmem hhandler (hrequest ▸ hbuf) hstage (hstate.trans hrunnable)

omit [Fintype π] [DecidableEq π] in
/-- A process whose buffers are left alone. -/
theorem Fits.frame (h : s.Fits type card p c)
    (hphase : ∀ b, c.stage.buf = some b → s.Phase type card c b → t.Phase type card c b) :
    t.Fits type card p c :=
  ⟨h.own, h.chanOwn, h.chan, h.reads, fun b hb => hphase b hb (h.phase b hb)⟩

omit [Fintype π] in
/-- A step of one process, which still waits for the requests of its own that are pending. The
queue, the buffers and the controller are as before, so only `Fits` of this process is to be shown.
-/
theorem Inv.setCall (h : s.Inv type card) (hc : s.Fits type card p c)
    (howner : ∀ b, b ∈ s.queue ∨ s.handler = .completing b → b.1 = p → c.stage.buf = some b) :
    (s.setCall p c).Inv type card where
  nodup := h.nodup
  fetched := h.fetched
  owner := by
    intro b hb
    show (Function.update s.call p c b.1).stage.buf = some b
    by_cases hp : b.1 = p
    · rw [hp, Function.update_self]
      exact howner b hb hp
    · rw [Function.update_of_ne hp]
      exact h.owner b hb
  written := h.written
  log := h.log
  emmc := h.emmc
  calls := by
    intro q
    show (s.setCall p c).Fits type card q (Function.update s.call p c q)
    have hsame : ∀ {d : SdCall (BufAddr π)} {x : BufAddr π}, s.Phase type card d x →
        (s.setCall p c).Phase type card d x := fun hx => hx.untouched Iff.rfl Iff.rfl rfl
    by_cases hq : q = p
    · rw [hq, Function.update_self]
      exact hc.frame fun b _ hb => hsame hb
    · rw [Function.update_of_ne hq]
      exact (h.calls q).frame fun b _ hb => hsame hb

/-- The process goes on inside `sdrw`. -/
theorem Inv.advances (h : s.Inv type card) {a : SdMove π} (hstep : s.step a = .ok (s.setCall p c))
    (hbuf : c.stage.buf = (s.call p).stage.buf) (hlt : c.stage.work < (s.call p).stage.work)
    (hc : s.Fits type card p c) : s.Advances type card a := by
  refine ⟨_, hstep, h.setCall hc ?_, ?_⟩
  · intro b hb hp
    rw [hbuf, ← hp]
    exact h.owner b hb
  · have hwork := work_setCall (s := s) (p := p) (c := c)
    omega

/-- The process is not asleep yet, and its request may be completed before it is. `Careful` lets the
completion wait. -/
theorem Inv.setState (h : s.Inv type card) (hstage : (s.call p).stage = .unlocked b) :
    s.Advances type card (.setState p) := by
  have hfits := h.calls p
  have hbuf : (s.call p).stage.buf = some b := hstage ▸ rfl
  apply h.advances (p := p)
  case hstep =>
    rw [step, hstage]
  case hbuf => exact hbuf.symm
  case hlt =>
    rw [hstage]
    exact Nat.lt_succ_self _
  case hc =>
    constructor
    case own => exact fun x hx => hfits.own x (hbuf.trans hx)
    case chanOwn => exact hfits.chanOwn
    case chan =>
      intro x hx
      rcases hx with hx | hx <;> cases hx
    case reads => exact fun x hx => hfits.reads x (hbuf.trans hx)
    case phase =>
      intro x hx
      cases hx
      -- the request is not completed, since the process has not gone to sleep
      cases hfits.phase b hbuf with
      | queued hmem hb _ => exact .queued hmem hb (.inr rfl)
      | transferred hhandler hb _ => exact .transferred hhandler hb (.inr rfl)
      | served _ _ _ hnot _ => exact absurd hstage hnot

/-- `chan` is set: from now on a completion finds the process. Before this step the request cannot
have been completed with the process asleep, which is what a careful `complete` says. -/
theorem Inv.setChan (h : s.Inv type card) (hstage : (s.call p).stage = .marked b) :
    s.Advances type card (.setChan p) := by
  have hfits := h.calls p
  have hbuf : (s.call p).stage.buf = some b := hstage ▸ rfl
  apply h.advances (p := p)
  case hstep =>
    rw [step, hstage]
  case hbuf => exact hbuf.symm
  case hlt =>
    rw [hstage]
    exact Nat.lt_succ_self _
  case hc =>
    constructor
    case own => exact fun x hx => hfits.own x (hbuf.trans hx)
    case chanOwn =>
      intro x hx
      cases hx
      exact hfits.own b hbuf
    case chan =>
      intro x hx
      rcases hx with hx | hx <;> cases hx
      rfl
    case reads => exact fun x hx => hfits.reads x (hbuf.trans hx)
    case phase =>
      intro x hx
      cases hx
      refine (hfits.phase b hbuf).goOn ?_ rfl rfl ?_
      · rw [hstage]
        simp
      · simp

/-- The process leaves its CPU. Nothing of what a completion looks at changes: `state` and `chan`
were set by the two steps before. -/
theorem Inv.sched (h : s.Inv type card) (hstage : (s.call p).stage = .parking b) :
    s.Advances type card (.sched p) := by
  have hfits := h.calls p
  have hbuf : (s.call p).stage.buf = some b := hstage ▸ rfl
  apply h.advances (p := p)
  case hstep =>
    rw [step, hstage]
  case hbuf => exact hbuf.symm
  case hlt =>
    rw [hstage]
    exact Nat.lt_succ_self _
  case hc =>
    constructor
    case own => exact fun x hx => hfits.own x (hbuf.trans hx)
    case chanOwn => exact hfits.chanOwn
    case chan =>
      intro x hx
      rcases hx with hx | hx <;> cases hx
      exact hfits.chan b (.inl hstage)
    case reads => exact fun x hx => hfits.reads x (hbuf.trans hx)
    case phase =>
      intro x hx
      cases hx
      refine (hfits.phase b hbuf).goOn ?_ rfl rfl ?_
      · rw [hstage]
        simp
      · simp

omit [Fintype π] [DecidableEq π] in
/-- A process that has been woken finds its request completed. -/
theorem Inv.served (h : s.Inv type card) (hstage : (s.call p).stage = .switched b)
    (hstate : (s.call p).proc.state = .runnable) :
    b ∉ s.queue ∧ s.handler ≠ .completing b ∧
      s.buf b = (serve type card (s.call p).request.buf).2 := by
  have hasleep : ¬((s.call p).stage = .unlocked b ∨ (s.call p).proc.state = .sleeping) := by
    rw [hstage, hstate]
    simp
  cases (h.calls p).phase b (hstage ▸ rfl) with
  | queued _ _ hwait => exact absurd hwait hasleep
  | transferred _ _ hwait => exact absurd hwait hasleep
  | served hmem hhandler hbuf _ _ => exact ⟨hmem, hhandler, hbuf⟩

omit [Fintype π] [DecidableEq π] in
/-- What is delivered is what was to be delivered: the result of the call is the one that was
expected when it was made. -/
theorem Inv.deliver {r : Request} {expected : Option BlockData} {x : Buf} (h : s.Inv type card)
    (hx : r.result x = expected) : (s.deliver r expected x).Inv type card where
  nodup := h.nodup
  fetched := h.fetched
  owner := h.owner
  written := h.written
  log := by
    intro y hy
    rcases List.mem_append.mp hy with hy | hy
    · exact h.log y hy
    · obtain rfl := List.mem_singleton.mp hy
      exact hx
  emmc := h.emmc
  calls := fun q => (h.calls q).frame fun _ _ hb => hb.untouched Iff.rfl Iff.rfl rfl

/-- A call returns with the block it was to read. A runnable process has been woken, so its request
is served, and the assertion after `sleep` in `sdrw` passes. -/
theorem Inv.run (h : s.Inv type card) (hstage : (s.call p).stage = .switched b)
    (hstate : (s.call p).proc.state = .runnable) : s.Advances type card (.run p) := by
  have hfits := h.calls p
  obtain ⟨hmem, hhandler, hserved⟩ := h.served hstage hstate
  obtain ⟨hreads, hexpected⟩ := hfits.reads b (hstage ▸ rfl)
  obtain ⟨-, hflags, hresult⟩ := hreads.serve card
  have hvalid : (s.buf b).flags &&& bValid ≠ 0 := by
    rw [hserved, hflags]
    decide
  -- The buffer holds the block, which is what was expected when the call was made.
  have hdelivered : (s.call p).request.result (s.buf b) = (s.call p).expected := by
    rw [hserved, hresult, hexpected]
  have hdone := h.deliver hdelivered
  have hstep : s.step (.run p) = .ok
      ((s.deliver (s.call p).request (s.call p).expected (s.buf b)).setCall p { s.call p with
        proc := { (s.call p).proc with state := .running }, stage := .outside }) := by
    rw [step, hstage]
    dsimp only
    rw [if_pos hstate, asserts_of hvalid, ok_bind]
    rfl
  refine ⟨_, hstep, hdone.setCall ?_ ?_, ?_⟩
  · constructor
    case own => exact fun x hx => by cases hx
    case chanOwn => exact hfits.chanOwn
    case chan =>
      intro x hx
      rcases hx with hx | hx <;> cases hx
    case reads => exact fun x hx => by cases hx
    case phase => exact fun x hx => by cases hx
  · -- the process waits for nothing but `b`
    intro x hx hp
    have hbuf := h.owner x hx
    rw [hp, hstage] at hbuf
    cases hbuf
    rcases hx with hx | hx
    · exact absurd hx hmem
    · exact absurd hx hhandler
  -- The last step of a call is one step of its work.
  · have hwork := work_setCall
      (s := s.deliver (s.call p).request (s.call p).expected (s.buf b)) (p := p)
      (c := { s.call p with
        proc := { (s.call p).proc with state := .running }, stage := .outside })
    have hsame : (s.deliver (s.call p).request (s.call p).expected (s.buf b)).work = s.work := rfl
    have hone : (s.call p).stage.work = 1 := by rw [hstage]; rfl
    change _ + (s.call p).stage.work = _ + 0 at hwork
    omega

/-! ## A new call

The request goes to the end of the queue. If the queue was empty the card is started for it. -/

omit [Fintype π] [DecidableEq π] in
/-- The card is always the same. -/
theorem EmmcFits.type_eq (h : s.EmmcFits type card) : s.emmc.type = type := by
  unfold EmmcFits at h
  split at h
  · exact h ▸ rfl
  · refine h.type_eq.trans ?_
    unfold started
    split <;> rfl
  · exact h.type_eq
  · exact h ▸ rfl

omit [Fintype π] [DecidableEq π] in
/-- A process outside of `sdrw` waits for nothing. -/
theorem Inv.outside (h : s.Inv type card) (hstage : (s.call p).stage = .outside) (hb : b.1 = p) :
    b ∉ s.queue ∧ s.handler ≠ .completing b := by
  have hnot : ¬(b ∈ s.queue ∨ s.handler = .completing b) := by
    intro hpending
    have hbuf := h.owner b hpending
    rw [hb, hstage] at hbuf
    cases hbuf
  exact not_or.mp hnot

omit [Fintype π] [DecidableEq π] in
/-- An idle card is started for the new request, and a busy one is left alone. -/
theorem Inv.startIfIdle {r : Request} (h : s.Inv type card) (hidle : s.handler = .idle)
    (hr : r.Reads type) : ∃ e, Driver.startIfIdle s.emmc s.queue r.buf = .ok (e, r.buf) ∧
      (s.queue = [] → e = started type card r.buf) ∧ (s.queue ≠ [] → e = s.emmc) := by
  have hemmc := h.emmc
  unfold EmmcFits at hemmc
  rw [hidle] at hemmc
  cases hqueue : s.queue with
  | cons x queue =>
    refine ⟨s.emmc, rfl, ?_, fun _ => rfl⟩
    intro hnil
    cases hnil
  | nil =>
    rw [hqueue] at hemmc
    have hvalid : r.buf.flags &&& bValid = 0 := by
      rw [hr.flags]
      rfl
    refine ⟨started type card r.buf, ?_, fun _ => rfl, fun hne => absurd rfl hne⟩
    rw [Driver.startIfIdle, if_pos hr.flags, hemmc, sdStart_quiet hvalid]
    rfl

omit [Fintype π] in
/-- The call is possible, as no interrupt was seen and the flags of a read pass the asserts. The
request joins the queue; when it is alone there its command is sent, and otherwise the controller is
not touched. -/
theorem Inv.sdrw {x : Nat} {r : Request} (h : s.Inv type card) (hidle : s.handler = .idle)
    (hstage : (s.call p).stage = .outside) (hr : r.Reads type) :
    ∃ t, s.step (.sdrw p x r false) = .ok t ∧ t.Inv type card := by
  obtain ⟨e, hstart, hempty, hbusy⟩ := h.startIfIdle hidle hr
  obtain ⟨hmem, hhandler⟩ := h.outside hstage (rfl : (p, x).1 = p)
  have hflags : r.buf.flags ≠ bValid := by
    rw [hr.flags]
    decide
  have hwritten : r.written s.written = card := by
    cases r with
    | read n junk => exact h.written
    | write n buffer => exact hr.1.elim
  have hexpected : r.expected s.written = some (card r.blockNo) := by
    cases r with
    | read n junk => exact congrArg (fun f => some (f n)) h.written
    | write n buffer => exact hr.1.elim
  -- the queue with the new request, before the process is told of it
  let u : SdCalls π := { s with
    emmc := e, queue := s.queue ++ [(p, x)], written := r.written s.written }.setBuf (p, x) r.buf
  let c : SdCall (BufAddr π) :=
    ⟨(s.call p).proc, .unlocked (p, x), r, r.expected s.written⟩
  have hstep : s.step (.sdrw p x r false) = .ok (u.setCall p c) := by
    rw [step]
    split
    · rw [asserts_of rfl, ok_bind, if_neg hflags, hstart]
      rfl
    · next hnot => exact absurd hstage (hnot hidle)
  have hother : ∀ {d : SdCall (BufAddr π)} {q : π} {b : BufAddr π}, q ≠ p → b.1 = q →
      s.Phase type card d b → (u.setCall p c).Phase type card d b := by
    intro d q b hq hb hphase
    have hne : b ≠ (p, x) := by
      rintro rfl
      exact hq hb.symm
    refine hphase.untouched ?_ Iff.rfl (Function.update_of_ne hne _ _)
    show b ∈ s.queue ++ [(p, x)] ↔ b ∈ s.queue
    simp [hne]
  refine ⟨u.setCall p c, hstep, ?_⟩
  constructor
  case nodup =>
    show (s.queue ++ [(p, x)]).Nodup
    rw [List.nodup_append]
    refine ⟨h.nodup, by simp, ?_⟩
    intro y hy z hz hyz
    obtain rfl := List.mem_singleton.mp hz
    exact hmem (hyz ▸ hy)
  case fetched =>
    intro y hy
    have hcompleting : s.handler = .completing y := hy
    rw [hidle] at hcompleting
    cases hcompleting
  case owner =>
    intro y hy
    show (Function.update s.call p c y.1).stage.buf = some y
    by_cases hp : y.1 = p
    · obtain ⟨hnot, hne⟩ := h.outside hstage hp
      rcases hy with hy | hy
      · rcases List.mem_append.mp hy with hy | hy
        · exact absurd hy hnot
        · obtain rfl := List.mem_singleton.mp hy
          rw [Function.update_self]
          rfl
      · exact absurd hy hne
    · rw [Function.update_of_ne hp]
      refine h.owner y (hy.imp_left ?_)
      intro hy
      rcases List.mem_append.mp hy with hy | hy
      · exact hy
      · obtain rfl := List.mem_singleton.mp hy
        exact absurd rfl hp
  case written => exact hwritten
  case log => exact h.log
  case emmc =>
    have hemmc := h.emmc
    unfold EmmcFits at hemmc ⊢
    rw [hidle] at hemmc
    show (match s.handler, s.queue ++ [(p, x)] with
      | .idle, [] => e = Emmc.quiet type card
      | .idle, b :: _ => (started type card (Function.update s.buf (p, x) r.buf b)).Raised e
      | .completing _, _ => (Emmc.moved type card).Raised e
      | .fetching, _ => e = Emmc.quiet type card)
    rw [hidle]
    cases hqueue : s.queue with
    | nil =>
      rw [hempty hqueue]
      show (started type card (Function.update s.buf (p, x) r.buf (p, x))).Raised _
      rw [Function.update_self]
      exact .inl rfl
    | cons y queue =>
      have hy : y ≠ (p, x) := by
        rintro rfl
        exact hmem (hqueue ▸ List.mem_cons_self)
      rw [hqueue] at hemmc
      rw [hbusy (by rw [hqueue]; simp)]
      show (started type card (Function.update s.buf (p, x) r.buf y)).Raised _
      rw [Function.update_of_ne hy]
      exact hemmc
  case calls =>
    intro q
    show (u.setCall p c).Fits type card q (Function.update s.call p c q)
    by_cases hq : q = p
    · subst hq
      rw [Function.update_self]
      constructor
      case own =>
        intro y hy
        cases hy
        rfl
      case chanOwn => exact (h.calls q).chanOwn
      case chan =>
        intro y hy
        rcases hy with hy | hy <;> cases hy
      case reads =>
        intro y hy
        exact ⟨hr, hexpected⟩
      case phase =>
        intro y hy
        cases hy
        refine .queued ?_ (Function.update_self ..) (.inl rfl)
        exact List.mem_append_right _ (List.mem_singleton.mpr rfl)
    · rw [Function.update_of_ne hq]
      exact (h.calls q).frame fun b hb => hother hq ((h.calls q).own b hb)

/-! ## Steps of the card and of `sd_intr`

The card raises its interrupt. `sd_intr` makes the transfer of the request at the head, completes it
with `wakeup`, and goes on with the next one until the queue is empty. -/

/-- The card ends its command. The bits that were pending are raised, and where `EmmcFits` knew the
controller before it knows it now as raised. -/
theorem Inv.raise (h : s.Inv type card) (hpending : s.emmc.pending ≠ 0) :
    s.Advances type card .raise := by
  refine ⟨{ s with emmc := s.emmc.raise }, if_neg hpending, ?_, ?_⟩
  · constructor
    case nodup => exact h.nodup
    case fetched => exact h.fetched
    case owner => exact h.owner
    case written => exact h.written
    case log => exact h.log
    case emmc =>
      have hemmc := h.emmc
      unfold EmmcFits at hemmc ⊢
      dsimp only
      split at hemmc
      · rw [hemmc] at hpending
        exact absurd rfl hpending
      · exact hemmc.raise hpending
      · exact hemmc.raise hpending
      · rw [hemmc] at hpending
        exact absurd rfl hpending
    case calls => exact fun q => (h.calls q).frame fun _ _ hb => hb.untouched Iff.rfl Iff.rfl rfl
  · have hzero : s.emmc.raise.pending = 0 := rfl
    unfold work
    rw [if_pos hzero, if_neg hpending]
    exact Nat.lt_succ_self _

omit [Fintype π] [DecidableEq π] in
/-- The request at the head of the queue is a read that nobody has touched. -/
theorem Inv.head {queue : List (BufAddr π)} (h : s.Inv type card) (hqueue : s.queue = b :: queue) :
    (s.call b.1).request.Reads type ∧ s.buf b = (s.call b.1).request.buf := by
  have hmem : b ∈ s.queue := hqueue ▸ List.mem_cons_self
  have hbuf := h.owner b (.inl hmem)
  refine ⟨((h.calls b.1).reads b hbuf).1, ?_⟩
  cases (h.calls b.1).phase b hbuf with
  | queued _ hb _ => exact hb
  | transferred hhandler _ _ => exact absurd hmem (h.fetched b hhandler)
  | served hnot _ _ _ _ => exact absurd hmem hnot

/-- `sd_intr` has taken the request at the head of the queue and made its transfer: the buffer is
filled, and `INT_DATA_DONE` is due. -/
def taken (type : SdType) (card : Nat → BlockData) (s : SdCalls π) (b : BufAddr π)
    (queue : List (BufAddr π)) : SdCalls π :=
  { s with emmc := Emmc.moved type card, queue := queue, handler := .completing b }.setBuf b
    (filled type card (s.buf b))

omit [Fintype π] in
/-- The request at the head leaves the queue, and is about to be completed. It moves from `queued`
to `transferred`; for every other request nothing changes. -/
theorem Inv.taken {queue : List (BufAddr π)} (h : s.Inv type card) (hqueue : s.queue = b :: queue)
    (hnone : ∀ x, s.handler ≠ .completing x) : (s.taken type card b queue).Inv type card := by
  have hnodup := h.nodup
  rw [hqueue] at hnodup
  obtain ⟨hout, hnodup⟩ := List.nodup_cons.mp hnodup
  constructor
  case nodup => exact hnodup
  case fetched =>
    intro x hx
    cases hx
    exact hout
  case owner =>
    intro x hx
    refine h.owner x (.inl ?_)
    rw [hqueue]
    rcases hx with hx | hx
    · exact List.mem_cons_of_mem _ hx
    · cases hx
      exact List.mem_cons_self
  case written => exact h.written
  case log => exact h.log
  case emmc => exact .inl rfl
  case calls =>
    intro q
    refine (h.calls q).frame fun x hx hphase => ?_
    by_cases hxb : x = b
    · -- the request that is taken
      subst hxb
      cases hphase with
      | queued _ hb hwait =>
        refine .transferred rfl ?_ hwait
        show Function.update s.buf x (filled type card (s.buf x)) x = _
        rw [Function.update_self, hb]
      | transferred hhandler _ _ => exact absurd hhandler (hnone x)
      | served hnot _ _ _ _ => exact absurd (hqueue ▸ List.mem_cons_self) hnot
    · refine hphase.untouched ?_ ?_ (Function.update_of_ne hxb _ _)
      · rw [hqueue]
        exact ⟨List.mem_cons_of_mem _, fun hmem => (List.mem_cons.mp hmem).resolve_left hxb⟩
      · refine ⟨fun hhandler => ?_, fun hhandler => absurd hhandler (hnone x)⟩
        cases hhandler
        exact absurd rfl hxb

/-- This lowers the work. -/
theorem work_taken {queue : List (BufAddr π)} (hqueue : s.queue = b :: queue) :
    (s.taken type card b queue).work < s.work := by
  have hdue : (if (Emmc.moved type card).pending = 0 then 0 else 1) = 1 := rfl
  show (∑ p, (s.call p).stage.work) + 6 * queue.length + 4 +
    (if (Emmc.moved type card).pending = 0 then 0 else 1) < s.work
  rw [hdue, work, hqueue, List.length_cons]
  omega

/-- The interrupt of the card finds the request that was started. The command was sent when the
request became the head of the queue, and as it is a read its data is moved here. -/
theorem Inv.sdIntr (h : s.Inv type card) (hidle : s.handler = .idle)
    (hint : s.emmc.interrupt ≠ 0) : s.Advances type card .sdIntr := by
  have hemmc := h.emmc
  unfold EmmcFits at hemmc
  rw [hidle] at hemmc
  cases hqueue : s.queue with
  | nil =>
    rw [hqueue] at hemmc
    exact absurd (hemmc ▸ rfl) hint
  | cons b queue =>
    rw [hqueue] at hemmc
    obtain ⟨hreads, hb⟩ := h.head hqueue
    have hflags : (s.buf b).flags = 0 := by
      rw [hb]
      exact hreads.flags
    have hcard : (serve type card (s.buf b)).1 = card := by
      rw [hb]
      exact (hreads.serve card).1
    have htransfer : transferRead s.emmc (s.buf b) =
        .ok (Emmc.moved type card, filled type card (s.buf b)) := by
      rw [transferRead, if_pos hflags, sdDoit_started hemmc, hcard]
    have hvalid : (s.buf b).flags ≠ bValid := by
      rw [hflags]
      decide
    refine ⟨s.taken type card b queue, ?_, h.taken hqueue ?_, work_taken hqueue⟩
    · rw [step]
      split
      · rw [if_neg hint]
        split
        · next hnil =>
          rw [hqueue] at hnil
          cases hnil
        · next x rest hcons =>
          rw [hqueue] at hcons
          cases hcons
          rw [kassert, if_pos hvalid, ok_bind, htransfer]
          rfl
      · next hnot => exact absurd hidle hnot
    · intro x hx
      rw [hidle] at hx
      cases hx

/-- A turn of the loop of `sd_intr`. With a request left, it is started, transferred and about to be
completed; with none, no interrupt is left either, the assertion passes and the handler ends. -/
theorem Inv.fetch (h : s.Inv type card) (hfetching : s.handler = .fetching) :
    s.Advances type card .fetch := by
  have hemmc := h.emmc
  unfold EmmcFits at hemmc
  rw [hfetching] at hemmc
  cases hqueue : s.queue with
  | nil =>
    -- The controller is quiet, so the assertion at the end of `sd_intr` passes.
    have hint : s.emmc.interrupt = 0 := by
      rw [hemmc]
      rfl
    refine ⟨{ s with handler := .idle }, ?_, ?_, ?_⟩
    · rw [step]
      split
      · split
        · rw [asserts_of hint]
          rfl
        · next x rest hcons =>
          rw [hqueue] at hcons
          cases hcons
      · next hnot => exact absurd hfetching hnot
    · constructor
      case nodup => exact h.nodup
      case fetched =>
        intro x hx
        cases hx
      case owner =>
        intro x hx
        refine h.owner x (hx.imp_right ?_)
        intro hx
        cases hx
      case written => exact h.written
      case log => exact h.log
      case emmc =>
        unfold EmmcFits
        dsimp only
        rw [hqueue]
        exact hemmc
      case calls =>
        refine fun q => (h.calls q).frame fun x _ hx => hx.untouched Iff.rfl ?_ rfl
        rw [hfetching]
        constructor <;> (intro hcompleting; cases hcompleting)
    · have hone : s.handler.work = 1 := by
        rw [hfetching]
        rfl
      show (∑ p, (s.call p).stage.work) + 6 * s.queue.length + 0 +
        (if s.emmc.pending = 0 then 0 else 1) < s.work
      unfold work
      omega
  | cons b queue =>
    -- The flags are those the caller has set, and `sd_start` accepts them.
    obtain ⟨hreads, hb⟩ := h.head hqueue
    have hvalid : (s.buf b).flags &&& bValid = 0 := by
      rw [hb, hreads.flags]
      rfl
    have hcard : (serve type card (s.buf b)).1 = card := by
      rw [hb]
      exact (hreads.serve card).1
    have hstart : sdStart s.emmc (s.buf b) true =
        .ok (Emmc.moved type card, filled type card (s.buf b)) := by
      rw [hemmc, sdStart_quiet hvalid, if_pos rfl, sdDoit_started (.inl rfl), hcard]
    refine ⟨s.taken type card b queue, ?_, h.taken hqueue ?_, work_taken hqueue⟩
    · rw [step]
      split
      · split
        · next hnil =>
          rw [hqueue] at hnil
          cases hnil
        · next x rest hcons =>
          rw [hqueue] at hcons
          cases hcons
          rw [hstart]
          rfl
      · next hnot => exact absurd hfetching hnot
    · intro x hx
      rw [hfetching] at hx
      cases hx

/-- A completed request wakes the process that waits for it, which has gone to sleep or will find
itself awake. This is the one step that needs a careful schedule: between `state` and `chan` the
wakeup would miss the process. -/
theorem Inv.complete (h : s.Inv type card) (hhandler : s.handler = .completing b)
    (hcareful : s.Careful .complete) : s.Advances type card .complete := by
  obtain ⟨hpast, htime⟩ := hcareful b (hhandler ▸ rfl)
  have hemmc := h.emmc
  unfold EmmcFits at hemmc
  rw [hhandler] at hemmc
  have hbuf := h.owner b (.inr hhandler)
  -- Of the three places of a request only this one is with `sd_intr`.
  have hfilled : s.buf b = filled type card (s.call b.1).request.buf := by
    cases (h.calls b.1).phase b hbuf with
    | queued hmem _ _ => exact absurd hmem (h.fetched b hhandler)
    | transferred _ hb _ => exact hb
    | served _ hnot _ _ _ => exact absurd hhandler hnot
  have hdone : sdWaitdone s.emmc (s.buf b) =
      .ok (Emmc.quiet type card, (serve type card (s.call b.1).request.buf).2) := by
    rw [sdWaitdone_moved hemmc, hfilled, filled_valid]
  refine ⟨({ s with emmc := Emmc.quiet type card, handler := .fetching }.setBuf b
    (serve type card (s.call b.1).request.buf).2).wakeup b, ?_, ?_, ?_⟩
  · rw [step]
    split
    · next x hx =>
      rw [hhandler] at hx
      cases hx
      rw [hdone]
      rfl
    · next hnot => exact absurd hhandler (hnot b)
  · constructor
    case nodup => exact h.nodup
    case fetched =>
      intro x hx
      cases hx
    case owner =>
      intro x hx
      refine h.owner x (hx.imp_right ?_)
      intro hx
      cases hx
    case written => exact h.written
    case log => exact h.log
    case emmc => exact rfl
    -- Of the processes only the one whose request this is may change.
    case calls =>
      intro q
      have hfits := h.calls q
      constructor
      case own => exact hfits.own
      case chanOwn => exact fun x hx => hfits.chanOwn x (Sleeper.wakeup_chan.symm.trans hx)
      case chan => exact fun x hx => Sleeper.wakeup_chan.trans (hfits.chan x hx)
      case reads => exact hfits.reads
      case phase =>
        intro x hx
        change (s.call q).stage.buf = some x at hx
        have hxq := hfits.own x hx
        by_cases hxb : x = b
        · -- the process that is woken
          subst hxb
          subst hxq
          have hsleeping : (s.call x.1).proc.state = .sleeping := by
            cases hfits.phase x hx with
            | queued _ _ hwait => exact hwait.resolve_left hpast
            | transferred _ _ hwait => exact hwait.resolve_left hpast
            | served _ hnot _ _ _ => exact absurd hhandler hnot
          refine .served (h.fetched x hhandler) ?_ (Function.update_self ..) hpast ?_
          · intro hcompleting
            cases hcompleting
          · show ((s.call x.1).proc.wakeup x).state = .runnable
            rw [Sleeper.wakeup, if_pos ⟨hsleeping, htime hsleeping⟩]
        · -- `b` is a buffer of another process, which does not sleep on it
          have hasleep : (s.call q).proc.wakeup b = (s.call q).proc := by
            apply Sleeper.wakeup_of_ne
            intro hchan
            have hq := hfits.chanOwn b hchan.2
            rw [hq, hx] at hbuf
            exact hxb (Option.some.inj hbuf)
          have hcall : { s.call q with proc := (s.call q).proc.wakeup b } = s.call q := by
            rw [hasleep]
          show Phase type card _ { s.call q with proc := (s.call q).proc.wakeup b } x
          rw [hcall]
          refine (hfits.phase x hx).untouched Iff.rfl ?_ (Function.update_of_ne hxb _ _)
          rw [hhandler]
          constructor
          · intro hcompleting
            cases hcompleting
          · intro hcompleting
            cases hcompleting
            exact absurd rfl hxb
  -- The work of `sd_intr` goes from 4 to 1, and no process has more to do.
  · have hfour : s.handler.work = 4 := by
      rw [hhandler]
      rfl
    have hnone : (if (Emmc.quiet type card).pending = 0 then 0 else 1) = 0 := rfl
    show (∑ p, (s.call p).stage.work) + 6 * s.queue.length + 1 +
      (if (Emmc.quiet type card).pending = 0 then 0 else 1) < s.work
    rw [hnone]
    unfold work
    omega

/-! ## Runs

The order of the steps is free. The only conditions are those of `Careful`. -/

omit [DecidableEq π] [Fintype π] in
/-- The invariant before the first call: the queue is empty, the controller is quiet, and nothing
has been delivered. -/
theorem Inv.idle (buf : BufAddr π → Buf) (request : Request) :
    (SdCalls.idle type card buf request).Inv type card where
  nodup := List.nodup_nil
  fetched := fun b hb => by cases hb
  owner := fun b hb => by rcases hb with hb | hb <;> cases hb
  written := rfl
  log := fun x hx => by cases hx
  emmc := rfl
  calls := by
    intro p
    constructor
    case own => exact fun b hb => by cases hb
    case chanOwn => exact fun b hb => by cases hb
    case chan => exact fun b hb => by rcases hb with hb | hb <;> cases hb
    case reads => exact fun b hb => by cases hb
    case phase => exact fun b hb => by cases hb

/-- A step other than a new call advances, or it is not possible yet. The lemmas above are collected
here, one case for each kind of step. -/
theorem Inv.step (h : s.Inv type card) {a : SdMove π} (hcall : ¬a.IsCall) (hcareful : s.Careful a) :
    s.Advances type card a ∨ s.step a = .error .wait := by
  cases a with
  | sdrw p x r seen => exact absurd trivial hcall
  | setState p =>
    cases hstage : (s.call p).stage with
    | unlocked b => exact .inl (h.setState hstage)
    | _ => exact .inr (by rw [SdCalls.step, hstage])
  | setChan p =>
    cases hstage : (s.call p).stage with
    | marked b => exact .inl (h.setChan hstage)
    | _ => exact .inr (by rw [SdCalls.step, hstage])
  | sched p =>
    cases hstage : (s.call p).stage with
    | parking b => exact .inl (h.sched hstage)
    | _ => exact .inr (by rw [SdCalls.step, hstage])
  | run p =>
    cases hstage : (s.call p).stage with
    | switched b =>
      by_cases hstate : (s.call p).proc.state = .runnable
      · exact .inl (h.run hstage hstate)
      · refine .inr ?_
        rw [SdCalls.step, hstage]
        exact if_neg hstate
    | _ => exact .inr (by rw [SdCalls.step, hstage])
  | raise =>
    by_cases hpending : s.emmc.pending = 0
    · exact .inr (if_pos hpending)
    · exact .inl (h.raise hpending)
  | sdIntr =>
    cases hhandler : s.handler with
    | idle =>
      by_cases hint : s.emmc.interrupt = 0
      · refine .inr ?_
        rw [SdCalls.step, hhandler]
        exact if_pos hint
      · exact .inl (h.sdIntr hhandler hint)
    | _ => exact .inr (by rw [SdCalls.step, hhandler])
  | complete =>
    cases hhandler : s.handler with
    | completing b => exact .inl (h.complete hhandler hcareful)
    | _ => exact .inr (by rw [SdCalls.step, hhandler])
  | fetch =>
    cases hhandler : s.handler with
    | fetching => exact .inl (h.fetch hhandler)
    | _ => exact .inr (by rw [SdCalls.step, hhandler])

omit [Fintype π] in
/-- A new call is put into the queue, or it has to wait for `sdlock`. -/
theorem Inv.call (h : s.Inv type card) {x : Nat} {r : Request} {seen : Bool}
    (hok : Allowed (.sdrw p x r seen)) (hcareful : s.Careful (.sdrw p x r seen)) :
    (∃ t, s.step (.sdrw p x r seen) = .ok t ∧ t.Inv type card) ∨
      s.step (.sdrw p x r seen) = .error .wait := by
  obtain ⟨rfl, hread, haddr⟩ := hcareful
  rw [h.emmc.type_eq] at haddr
  by_cases hfree : s.handler = .idle ∧ (s.call p).stage = .outside
  · exact .inl (h.sdrw hfree.1 hfree.2 ⟨hread, hok, haddr⟩)
  · refine .inr ?_
    rw [SdCalls.step]
    split
    · next hidle hout => exact absurd ⟨hidle, hout⟩ hfree
    · rfl

omit [Fintype π] [DecidableEq π] in
/-- The completion finds the process that has gone to sleep. -/
theorem careful_of_chan (hhandler : s.handler = .completing b)
    (hpast : (s.call b.1).stage ≠ .unlocked b) (hchan : (s.call b.1).proc.chan = some b) :
    s.Careful .complete := by
  intro x hx
  rw [hhandler] at hx
  cases hx
  exact ⟨hpast, fun _ => hchan⟩

/-- The request that is completed next is completed in time, once its process has gone to sleep.
Until then the process itself can go on, and each of its steps lowers the work. -/
theorem Inv.progress_completing (h : s.Inv type card) (hhandler : s.handler = .completing b) :
    ∃ a, ¬a.IsCall ∧ s.Careful a ∧ s.Advances type card a := by
  have hbuf := h.owner b (.inr hhandler)
  have hchan := (h.calls b.1).chan b
  have hcomplete : s.Careful .complete → ∃ a, ¬a.IsCall ∧ s.Careful a ∧ s.Advances type card a :=
    fun htime => ⟨.complete, not_false, htime, h.complete hhandler htime⟩
  cases hstage : (s.call b.1).stage with
  | outside =>
    rw [hstage] at hbuf
    cases hbuf
  | unlocked x => exact ⟨.setState b.1, not_false, trivial, h.setState hstage⟩
  | marked x => exact ⟨.setChan b.1, not_false, trivial, h.setChan hstage⟩
  | parking x =>
    rw [hstage] at hbuf
    cases hbuf
    apply hcomplete
    exact careful_of_chan hhandler (by rw [hstage]; simp) (hchan (.inl hstage))
  | switched x =>
    rw [hstage] at hbuf
    cases hbuf
    apply hcomplete
    exact careful_of_chan hhandler (by rw [hstage]; simp) (hchan (.inr hstage))

/-- A call whose request is completed returns by steps of its own: it was woken, so it is runnable
when a scheduler comes to it. -/
theorem Inv.progress_served (h : s.Inv type card) (hidle : s.handler = .idle)
    (hqueue : s.queue = []) (hbuf : (s.call p).stage.buf = some b) :
    ∃ a, ¬a.IsCall ∧ s.Careful a ∧ s.Advances type card a := by
  have hserved : (s.call p).stage ≠ .unlocked b ∧ (s.call p).proc.state = .runnable := by
    cases (h.calls p).phase b hbuf with
    | queued hmem _ _ =>
      rw [hqueue] at hmem
      cases hmem
    | transferred hhandler _ _ =>
      rw [hidle] at hhandler
      cases hhandler
    | served _ _ _ hstage hstate => exact ⟨hstage, hstate⟩
  cases hstage : (s.call p).stage with
  | outside =>
    rw [hstage] at hbuf
    cases hbuf
  | unlocked x =>
    rw [hstage] at hbuf
    cases hbuf
    exact absurd hstage hserved.1
  | marked x => exact ⟨.setChan p, not_false, trivial, h.setChan hstage⟩
  | parking x => exact ⟨.sched p, not_false, trivial, h.sched hstage⟩
  | switched x => exact ⟨.run p, not_false, trivial, h.run hstage hserved.2⟩

omit [Fintype π] [DecidableEq π] in
/-- A card that was started has raised its interrupt or will: while the register is clear, there is
a bit to come. -/
theorem due_of_started {x : Buf} {e : Emmc} (h : (started type card x).Raised e)
    (hint : e.interrupt = 0) : e.pending ≠ 0 := by
  have hwrite : intWriteRdy ≠ 0 := by decide
  have hread : intReadRdy ≠ 0 := by decide
  have hdue : (started type card x).pending ≠ 0 ∧ (started type card x).interrupt = 0 := by
    unfold started
    split
    · exact ⟨hwrite, rfl⟩
    · exact ⟨hread, rfl⟩
  rcases h with rfl | rfl
  · exact hdue.1
  · refine absurd ?_ hdue.1
    have hraised : (started type card x).interrupt ||| (started type card x).pending = 0 := hint
    rw [hdue.2] at hraised
    exact BitVec.zero_or.symm.trans hraised

/-- As long as a call has not returned, somebody can go on: `sd_intr` when it runs, else the card
when an interrupt is due, else `sd_intr` when one is raised, and with an empty queue the caller
itself. -/
theorem Inv.progress (h : s.Inv type card) (hcall : (s.call p).stage ≠ .outside) :
    ∃ a, ¬a.IsCall ∧ s.Careful a ∧ s.Advances type card a := by
  cases hhandler : s.handler with
  | fetching => exact ⟨.fetch, not_false, trivial, h.fetch hhandler⟩
  | completing b => exact h.progress_completing hhandler
  | idle =>
    have hemmc := h.emmc
    unfold EmmcFits at hemmc
    rw [hhandler] at hemmc
    cases hqueue : s.queue with
    | cons b queue =>
      rw [hqueue] at hemmc
      by_cases hint : s.emmc.interrupt = 0
      · exact ⟨.raise, not_false, trivial, h.raise (due_of_started hemmc hint)⟩
      · exact ⟨.sdIntr, not_false, trivial, h.sdIntr hhandler hint⟩
    | nil =>
      obtain ⟨b, hbuf⟩ : ∃ b, (s.call p).stage.buf = some b := by
        cases hstage : (s.call p).stage with
        | outside => exact absurd hstage hcall
        | unlocked b => exact ⟨b, rfl⟩
        | marked b => exact ⟨b, rfl⟩
        | parking b => exact ⟨b, rfl⟩
        | switched b => exact ⟨b, rfl⟩
      exact h.progress_served hhandler hqueue hbuf

/-- The invariant along a run, by induction on its steps: a call keeps it by `Inv.sdrw` or delivers
at once, any other step by `Inv.step`. -/
theorem Run.inv {buf : BufAddr π → Buf} {request : Request}
    (h : Run (SdCalls.idle type card buf request) s) : s.Inv type card := by
  refine Steps.invariant h (Inv.idle buf request) ?_
  intro s t a hs hok hstep
  by_cases hcall : a.IsCall
  · cases a with
    | sdrw p x r seen =>
      rcases hs.call hok.1 hok.2 with ⟨u, hu, hinv⟩ | hwait
      · rw [hu] at hstep
        cases hstep
        exact hinv
      · rw [hwait] at hstep
        cases hstep
    | _ => exact hcall.elim
  · rcases hs.step hcall hok.2 with ⟨u, hu, hinv, -⟩ | hwait
    · rw [hu] at hstep
      cases hstep
      exact hinv
    · rw [hwait] at hstep
      cases hstep

/-- Whatever processes read through the block device, in whatever order they, the card and `sd_intr`
take their steps: what a call delivers is the block as the calls before it leave it, no assertion
fails, and every call returns. The last is a bound that each step but a new call lowers, and a step
that is possible as long as a call has not returned. -/
theorem sdCalls_roundTrip (type : SdType) (card : Nat → BlockData) (buf : BufAddr π → Buf)
    (request : Request) (h : Run (SdCalls.idle type card buf request) s) :
    (∀ x ∈ s.log, x.result = x.expected) ∧
    (∀ a stop, Allowed a → s.Careful a → s.step a = .error stop → stop = .wait) ∧
    (∀ a t, ¬a.IsCall → s.Careful a → s.step a = .ok t → t.work < s.work) ∧
    ∀ p, (s.call p).stage ≠ .outside →
      ∃ a t, ¬a.IsCall ∧ s.Careful a ∧ s.step a = .ok t := by
  have hinv := h.inv
  refine ⟨hinv.log, ?_, ?_, ?_⟩
  · intro a stop hok hcareful hstop
    by_cases hcall : a.IsCall
    · cases a with
      | sdrw p x r seen =>
        rcases hinv.call hok hcareful with ⟨u, hu, -⟩ | hwait
        · rw [hu] at hstop
          cases hstop
        · rw [hwait] at hstop
          cases hstop
          rfl
      | _ => exact hcall.elim
    · rcases hinv.step hcall hcareful with ⟨u, hu, -⟩ | hwait
      · rw [hu] at hstop
        cases hstop
      · rw [hwait] at hstop
        cases hstop
        rfl
  · intro a t hcall hcareful hstep
    rcases hinv.step hcall hcareful with ⟨u, hu, -, hlt⟩ | hwait
    · rw [hu] at hstep
      cases hstep
      exact hlt
    · rw [hwait] at hstep
      cases hstep
  · intro p hp
    obtain ⟨a, hcall, hcareful, t, hstep, -, -⟩ := hinv.progress hp
    exact ⟨a, t, hcall, hcareful, hstep⟩

/-- `sd_write` on an idle driver. -/
theorem sd_write_panics : Allowed (.sdrw () 0 (.write 0 BlockData.zero) false) ∧
    step (SdCalls.idle .type2HC (fun _ => BlockData.zero) (fun _ => ⟨0, 0, BlockData.zero⟩)
      (.read 0 BlockData.zero)) (.sdrw () 0 (.write 0 BlockData.zero) false) =
      .error (.panic
        "assertion failed: \"!(b->flags & B_VALID)\". valid buf should not be here.") := by
  refine ⟨?_, rfl⟩
  show 0 < 2 ^ 32
  decide

/-- A process calls `sd_read` while the card works for another one, and both return. -/
theorem sdCalls_roundTrip_two : ∃ s : SdCalls Bool,
    Run (SdCalls.idle .type2HC (fun n i => .ofNat (n + i.val)) (fun _ => ⟨0, 0, BlockData.zero⟩)
      (.read 0 BlockData.zero)) s ∧ s.log.length = 2 ∧ ∀ x ∈ s.log, x.result = x.expected := by
  let s₀ : SdCalls Bool := SdCalls.idle .type2HC (fun n i => .ofNat (n + i.val))
    (fun _ => ⟨0, 0, BlockData.zero⟩) (.read 0 BlockData.zero)
  obtain ⟨s, hrun, hlog⟩ : ∃ s, runList step (fun s a => Allowed a ∧ s.Careful a) s₀
      [.sdrw false 0 (.read 7 BlockData.zero) false, .setState false,
        .sdrw true 3 (.read 9 BlockData.zero) false, .raise, .sdIntr, .setChan false, .complete,
        .setState true, .fetch, .setChan true, .sched true, .sched false, .complete, .fetch,
        .run true, .run false] = some s ∧ s.log.length = 2 := by
    have hlog : (runList step (fun s a => Allowed a ∧ s.Careful a) s₀
      [.sdrw false 0 (.read 7 BlockData.zero) false, .setState false,
        .sdrw true 3 (.read 9 BlockData.zero) false, .raise, .sdIntr, .setChan false, .complete,
        .setState true, .fetch, .setChan true, .sched true, .sched false, .complete, .fetch,
        .run true, .run false]).map (fun s => s.log.length) = some 2 := by
      decide +kernel
    exact Option.map_eq_some_iff.mp hlog
  have hrun' : Run s₀ s := StepsOf.of_runList hrun
  exact ⟨s, hrun', hlog, (sdCalls_roundTrip _ _ _ _ hrun').1⟩

end SdCalls

end KernelAarch64.Driver
