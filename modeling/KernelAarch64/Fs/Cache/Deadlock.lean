import KernelAarch64.Fs.Cache.Threads

/-!
# Deadlock between `lock` and a sleep lock

`cache_acquire` waits for the sleep lock of a block with `lock` in its hands. If the holder of the
block needs `lock` once more before it releases the block (to sync it, say), the two wait for each
other for ever. This is reachable by threads that take their blocks in increasing order, and it is
reached exactly through a `cache_acquire` that gets `lock` at such a moment.

The main result is `deadlock_free_of_careful`, in both directions, over every schedule of any number
of threads. For the first direction the invariant is `Clear`: whoever waits with `lock` in its hands
waits for a holder that can release without `lock`. A careful step keeps it (`Clear.move`), since
while `lock` is held the others can only enter calls and release blocks (`Guarded.other`). For the
second direction the holder is run forward until it needs `lock` (`Sound.exists_deadlock`), which
takes that threads follow their programs (`Sound`); `Sound.deadlock_forever` says that the two then
stay where they are.
-/

namespace KernelAarch64.Fs

/-- The blocks an operation has acquired so far, and those of them that it still has to sync and
to release. -/
structure OpState where
  taken : List Nat
  unsynced : List Nat
  held : List Nat

/-- The rest of a program acquires blocks in increasing order inside operations, syncs and releases
each of them, and ends its operations. `none` is the state outside an operation. -/
def follows : Option OpState → List Call → Bool
  | none, [] => true
  | none, .beginOp :: calls => follows (some ⟨[], [], []⟩) calls
  | some o, .acquire b :: calls =>
    o.taken.all (· < b) && follows (some ⟨b :: o.taken, b :: o.unsynced, b :: o.held⟩) calls
  | some o, .sync b :: calls =>
    o.held.contains b && follows (some { o with unsynced := o.unsynced.filter (· ≠ b) }) calls
  | some o, .release b :: calls =>
    o.held.contains b && !o.unsynced.contains b &&
      follows (some { o with held := o.held.filter (· ≠ b) }) calls
  | some o, .endOp :: calls => o.held.isEmpty && follows none calls
  | _, _ => false

/-- The calls take `lock` before they release block `b`. A thread of which this is true will wait
for `lock` with the sleep lock of `b` in its hands. -/
def locksBefore (b : Nat) : List Call → Bool
  | [] => false
  | .release c :: calls => if c = b then false else locksBefore b calls
  | _ :: _ => true

/-- A call that takes `lock` does so before any release. -/
theorem locksBefore_of_locks {call : Call} (h : call.locks = true) (b : Nat) (calls : List Call) :
    locksBefore b (call :: calls) = true := by
  cases call with
  | release c => cases h
  | _ => rfl

namespace Machine

variable {ι : Type}

/-- Thread `t` has `lock` and waits for the sleep lock of block `b`. -/
def WaitsFor (m : Machine ι) (t : ι) (b : Nat) : Prop :=
  m.lock = some t ∧ (m.threads t).stage = .locked ∧ (m.threads t).calls.head? = some (.acquire b)

/-- Thread `t` has `lock` and waits for block `b`, whose holder `u` waits for `lock`. -/
def Deadlock (m : Machine ι) (t u : ι) (b : Nat) : Prop :=
  m.WaitsFor t b ∧ m.holder b = some u ∧ (m.threads u).stage = .spinning

/-- If the next step of `t` takes `lock` in `cache_acquire(b)`, then whoever holds block `b` does
not take `lock` before it releases `b`. -/
def Careful (m : Machine ι) (t : ι) : Prop :=
  match m.lock, (m.threads t).stage, (m.threads t).calls with
  | none, .spinning, .acquire b :: _ =>
    ∀ u ∈ m.holder b, u ≠ t → locksBefore b (m.threads u).calls = false
  | _, _, _ => True

variable [DecidableEq ι]

instance (m : Machine ι) (t u : ι) (b : Nat) : Decidable (m.Deadlock t u b) := by
  unfold Deadlock WaitsFor
  infer_instance

instance (m : Machine ι) (t : ι) : Decidable (m.Careful t) := by
  unfold Careful
  split <;> infer_instance

/-- Every step of the run is careful in the state that the steps before it have led to. -/
def CarefulRun (sb : SuperBlock) (m : Machine ι) : List ι → Prop
  | [] => True
  | t :: schedule => m.Careful t ∧ ∀ n ∈ m.step sb t, n.CarefulRun sb schedule

instance decidableCarefulRun (sb : SuperBlock) :
    (m : Machine ι) → (schedule : List ι) → Decidable (m.CarefulRun sb schedule)
  | _, [] => .isTrue trivial
  | m, t :: schedule =>
    have : ∀ n : Machine ι, Decidable (n.CarefulRun sb schedule) :=
      fun n => decidableCarefulRun sb n schedule
    inferInstanceAs (Decidable (m.Careful t ∧ ∀ n ∈ m.step sb t, n.CarefulRun sb schedule))

/-! ## Runs

A run is a list of the threads that make the steps. The stage of a thread says what it holds, and
that is kept by every step, careful or not. -/

variable {sb : SuperBlock} {m n : Machine ι} {t u : ι}

/-- What holds at the start of a run and is kept by each step holds at its end. -/
theorem run_invariant {I : Machine ι → Prop} (hstep : ∀ u v t, I u → u.Move sb t v → I v)
    {schedule : List ι} (hm : I m) (hrun : m.run sb schedule = some n) : I n := by
  induction schedule generalizing m with
  | nil =>
    cases hrun
    exact hm
  | cons t schedule ih =>
    obtain ⟨v, hv, hrun⟩ := Option.bind_eq_some_iff.mp hrun
    exact ih (hstep m v t hm (move_of_step hv)) hrun

/-- Where threads are in their calls: `lock` is with the thread that is in the body of a call or
about to release it, and nobody else is there. -/
structure Guarded (m : Machine ι) : Prop where
  /-- A thread in the body of a call has `lock`. -/
  owner : ∀ t, (m.threads t).stage = .locked ∨ (m.threads t).stage = .leaving → m.lock = some t
  /-- A thread waits for `lock` in a call that takes it. -/
  spinning : ∀ t, (m.threads t).stage = .spinning →
    ∃ call calls, (m.threads t).calls = call :: calls ∧ call.locks = true
  /-- Only `cache_begin_op` sleeps. -/
  asleep : ∀ t, (m.threads t).stage = .asleep → (m.threads t).calls.head? = some .beginOp

/-- While `t` has `lock`, the others can only enter a call and release blocks. -/
theorem Guarded.other (h : m.Guarded) (hlock : m.lock = some t) (hu : u ≠ t)
    (hmove : m.Move sb u n) :
    n.lock = some t ∧ (n.holder = m.holder ∧ (n.threads u).calls = (m.threads u).calls ∨
      ∃ b, (m.threads u).calls = .release b :: (n.threads u).calls ∧
        n.holder = Function.update m.holder b none) := by
  have hstage : (m.threads u).stage ≠ .locked ∧ (m.threads u).stage ≠ .leaving := by
    rw [← not_or]
    intro hstage
    rw [h.owner u hstage] at hlock
    exact hu (Option.some.inj hlock)
  cases hmove with
  | call => exact ⟨hlock, .inl ⟨rfl, by simp⟩⟩
  | @release b _ _ _ hcalls => exact ⟨hlock, .inr ⟨b, by simpa using hcalls, rfl⟩⟩
  | lock _ hfree => rw [hfree] at hlock; cases hlock
  | body hstage' => exact absurd hstage' hstage.1
  | sleep hstage' => exact absurd hstage' hstage.1
  | unlock hstage' => exact absurd hstage' hstage.2

/-- Each stage is entered only in a call that has it, with `lock` where the stage says so. One case
for each move. -/
theorem Guarded.move (h : m.Guarded) (hmove : m.Move sb u n) : n.Guarded := by
  constructor
  · intro t hstage
    by_cases ht : t = u
    · subst ht
      cases hmove with
      | lock => rfl
      | body hstage' _ hbody =>
        exact (body_frame hbody).1.trans (h.owner t (.inl hstage'))
      | _ => simp at hstage
    · have hlock : m.lock = some t := by
        apply h.owner t
        rcases (hmove.others ht).2 with heq | ⟨-, heq⟩
        · rwa [← heq]
        · simp [heq] at hstage
      exact (h.other hlock (Ne.symm ht) hmove).1
  · intro t hstage
    by_cases ht : t = u
    · subst ht
      cases hmove with
      | call _ hcalls hlocks => exact ⟨_, _, by simpa using hcalls, hlocks⟩
      | _ => simp at hstage
    · rw [(hmove.others ht).1]
      rcases (hmove.others ht).2 with heq | ⟨heq, -⟩
      · exact h.spinning t (heq ▸ hstage)
      · obtain ⟨calls, hcalls⟩ := List.head?_eq_some_iff.mp (h.asleep t heq)
        exact ⟨_, _, hcalls, rfl⟩
  · intro t hstage
    by_cases ht : t = u
    · subst ht
      cases hmove with
      | sleep _ hcalls => simp [hcalls]
      | _ => simp at hstage
    · rw [(hmove.others ht).1]
      apply h.asleep t
      rcases (hmove.others ht).2 with heq | ⟨-, heq⟩
      · exact heq ▸ hstage
      · simp [heq] at hstage

omit [DecidableEq ι] in
theorem start_guarded (sb : SuperBlock) (disk : Disk) (programs : ι → List Call) :
    (start sb disk programs).Guarded := by
  constructor <;> simp [start]

/-! ## Careful runs

No assumption on the programs is used here: that blocks are taken in increasing order does not
matter for this cycle, which is between `lock` and one sleep lock. -/

/-- Whoever holds a block that a thread waits for with `lock` can release it without `lock`. -/
def Clear (m : Machine ι) : Prop :=
  ∀ t u b, m.WaitsFor t b → m.holder b = some u → u ≠ t →
    locksBefore b (m.threads u).calls = false

/-- The step that could break `Clear` is a `cache_acquire` that gets `lock`, and a careful one does
so only while the holder of its block needs no more locks. The holder gets no nearer to a call with
`lock` by steps of the others. -/
theorem Clear.move (h : m.Clear) (hg : m.Guarded) (hmove : m.Move sb t n) (hcareful : m.Careful t) :
    n.Clear := by
  rintro v u b ⟨hlock, hstage, hcall⟩ hholder huv
  by_cases hv : v = t
  · subst hv
    -- `v` has just taken `lock`
    cases hmove with
    | lock hspin hfree =>
      rw [put_self] at hcall
      rw [put_of_ne _ huv]
      obtain ⟨calls, hcalls⟩ := List.head?_eq_some_iff.mp hcall
      dsimp only at hcalls
      simp only [Careful, hfree, hspin, hcalls] at hcareful
      exact hcareful u hholder huv
    | _ => simp at hstage
  · -- the step of `t` happens beside a thread that already waits
    have hstage' : (m.threads v).stage = .locked := by
      rcases (hmove.others hv).2 with heq | ⟨-, heq⟩
      · rwa [← heq]
      · simp [heq] at hstage
    have hlock' : m.lock = some v := hg.owner v (.inl hstage')
    have hwaits : m.WaitsFor v b := ⟨hlock', hstage', (hmove.others hv).1 ▸ hcall⟩
    rcases (hg.other hlock' (Ne.symm hv) hmove).2 with ⟨heq, hcalls⟩ | ⟨c, hcalls, heq⟩
    · rw [heq] at hholder
      have hclear := h v u b hwaits hholder huv
      by_cases hut : u = t
      · subst hut
        rwa [hcalls]
      · rwa [(hmove.others hut).1]
    · rw [heq] at hholder
      have hcb : b ≠ c := by
        rintro rfl
        simp at hholder
      rw [Function.update_of_ne hcb] at hholder
      have hclear := h v u b hwaits hholder huv
      by_cases hut : u = t
      · subst hut
        simpa [hcalls, locksBefore, hcb.symm] using hclear
      · rwa [(hmove.others hut).1]

theorem Clear.run (h : m.Clear) (hg : m.Guarded) {schedule : List ι}
    (hcareful : m.CarefulRun sb schedule) (hrun : m.run sb schedule = some n) :
    n.Clear ∧ n.Guarded := by
  induction schedule generalizing m with
  | nil =>
    cases hrun
    exact ⟨h, hg⟩
  | cons t schedule ih =>
    obtain ⟨v, hv, hrun⟩ := Option.bind_eq_some_iff.mp hrun
    have hmove := move_of_step hv
    exact ih (h.move hg hmove hcareful.1) (hg.move hmove) (hcareful.2 v hv) hrun

omit [DecidableEq ι] in
/-- In a deadlock the holder is in `acquire_spinlock(&lock)`, so that its next call takes `lock`
before it releases anything. -/
theorem Clear.not_deadlock (h : m.Clear) (hg : m.Guarded) (t u : ι) (b : Nat) :
    ¬ m.Deadlock t u b := by
  rintro ⟨hwaits, hholder, hspin⟩
  have hut : u ≠ t := by
    rintro rfl
    rw [hwaits.2.1] at hspin
    cases hspin
  obtain ⟨call, calls, hcalls, hlocks⟩ := hg.spinning u hspin
  have hclear := h t u b hwaits hholder hut
  rw [hcalls, locksBefore_of_locks hlocks] at hclear
  cases hclear

omit [DecidableEq ι] in
theorem start_clear (sb : SuperBlock) (disk : Disk) (programs : ι → List Call) :
    (start sb disk programs).Clear := by
  simp [Clear, start]

/-! ## Programs and the sleep locks they hold

To run the holder of a block forward one has to know that its next calls return: that the block it
syncs is cached and taken, that it releases what it holds. `follows` is the discipline of callers,
and `Sound` ties it to the sleep locks in the cache. -/

end Machine

/-- The sleep lock of block `b` is taken. -/
def Cache.Locked (s : Cache) (b : Nat) : Prop :=
  ∃ blk, getCache b s.blocks = some blk ∧ blk.locked = true

namespace Cache.Locked

variable {s s' : Cache} {b x : Nat}

theorem setBlock (h : s.Locked x) {f : Block → Block} (hno : ∀ blk, (f blk).blockNo = blk.blockNo)
    (hlocked : ∀ blk, (f blk).locked = blk.locked) (b : Nat) : (s.setBlock b f).Locked x := by
  obtain ⟨blk, hget, hl⟩ := h
  by_cases hx : x = b
  · subst hx
    refine ⟨f blk, ?_, (hlocked blk).trans hl⟩
    rw [Cache.setBlock_blocks, getCache_setCache_self hno, hget]
    rfl
  · refine ⟨blk, ?_, hl⟩
    rw [Cache.setBlock_blocks, getCache_setCache_of_ne hno hx, hget]

theorem not_acquire (h : s.Locked b) {blk : Block} : unsafeCacheAcquire b s ≠ .ok (blk, s') := by
  intro hs
  obtain ⟨a, hget, hl⟩ := h
  obtain ⟨a', hget', hfree, -⟩ := unsafeCacheAcquire_eq_ok.mp hs
  simp only [loadBlock, hget] at hget'
  cases hget'
  rw [hfree] at hl
  cases hl

theorem of_acquire (h : s.Rep) {blk : Block} (hs : unsafeCacheAcquire b s = .ok (blk, s')) :
    s'.Locked b := by
  obtain ⟨a, -, -, rfl, -⟩ := unsafeCacheAcquire_eq_ok.mp hs
  exact ⟨_, (h.getCache_acquire hs).1, rfl⟩

theorem acquire (h : s.Locked x) (hrep : s.Rep) {blk : Block}
    (hs : unsafeCacheAcquire b s = .ok (blk, s')) : s'.Locked x := by
  have hx : x ≠ b := by
    rintro rfl
    exact h.not_acquire hs
  obtain ⟨a, hget, hl⟩ := h
  have hbusy : a.acquired = true := (hrep.acquired_eq a (getCache_eq_some hget).1).trans hl
  exact ⟨a, hrep.getCache_acquire_of_ne hs hx hget (.inl hbusy), hl⟩

theorem sync (h : s.Locked x) {c : OpContext} {r : Option OpContext}
    (hs : unsafeCacheSync (some c) b s = .ok (r, s')) : s'.Locked x := by
  obtain ⟨-, ⟨-, -, -, rfl⟩ | ⟨-, -, -, rfl⟩⟩ := unsafeCacheSync_ctx.mp hs
  · exact h.setBlock (f := Block.pin) (fun _ => rfl) (fun _ => rfl) b
  · have h' : Locked { s with header := s.header.push b } x := h
    exact h'.setBlock (f := Block.pin) (fun _ => rfl) (fun _ => rfl) b

theorem release (h : s.Locked x) (hx : x ≠ b) (hs : cacheRelease b s = .ok s') : s'.Locked x := by
  obtain ⟨-, rfl⟩ := cacheRelease_eq_ok.mp hs
  obtain ⟨a, hget, hl⟩ := h
  refine ⟨a, ?_, hl⟩
  rw [Cache.setBlock_blocks, getCache_setCache_of_ne (f := Block.unlock) (fun _ => rfl) hx, hget]

theorem endOp (h : s.Locked x) (hrep : s.Rep) {sb : SuperBlock} {c : OpContext}
    (hs : cacheEndOp sb c s = .ok s') : s'.Locked x := by
  obtain ⟨a, hget, hl⟩ := h
  rcases cacheEndOp_eq_ok.mp hs with ⟨-, u, hu, rfl⟩ | ⟨-, rfl⟩
  · obtain ⟨g, dev, heq⟩ := commit_frame sb hrep
    rw [heq] at hu
    cases hu
    refine ⟨_, (getCache_unpinAll _ _ _).trans (congrArg _ hget), ?_⟩
    split <;> exact hl
  · exact ⟨a, hget, hl⟩

end Cache.Locked

namespace Machine

variable {ι : Type} [DecidableEq ι] {sb : SuperBlock} {m n : Machine ι} {t u : ι}

/-- The threads follow their programs: each holds the sleep locks its program says. So what a thread
has left to do tells which blocks it will release. -/
structure Sound (m : Machine ι) : Prop where
  rep : m.cache.Rep
  locked : ∀ b u, m.holder b = some u → m.cache.Locked b
  program : ∀ t, ∃ o, follows o (m.threads t).calls = true ∧
    ∀ b, m.holder b = some t ↔ ∃ x ∈ o, b ∈ x.held

namespace Sound

omit [DecidableEq ι] in
/-- A step that only moves between the stages of a call. -/
theorem of_eq (h : m.Sound) (hcache : n.cache = m.cache) (hholder : n.holder = m.holder)
    (hcalls : ∀ t, (n.threads t).calls = (m.threads t).calls) : n.Sound := by
  refine ⟨hcache ▸ h.rep, ?_, ?_⟩
  · rw [hcache, hholder]
    exact h.locked
  · intro t
    rw [hcalls, hholder]
    exact h.program t

/-- A step that completes the first call of thread `t`. The calls of the other threads and the
blocks that they hold are as they were. -/
theorem of_call (h : m.Sound) (hrep : n.cache.Rep)
    (hlocked : ∀ b u, n.holder b = some u → n.cache.Locked b)
    (hcalls : ∀ u, (n.threads u).calls = (m.threads u).calls)
    (hothers : ∀ u b, u ≠ t → (n.holder b = some u ↔ m.holder b = some u))
    {calls : List Call} {o : Option OpState} (hfollows : follows o calls = true)
    (hself : ∀ b, n.holder b = some t ↔ ∃ x ∈ o, b ∈ x.held) (stage : Stage) (ctx : OpContext) :
    (n.put t ⟨calls, stage, ctx⟩).Sound := by
  refine ⟨hrep, hlocked, ?_⟩
  intro u
  by_cases hu : u = t
  · subst hu
    exact ⟨o, by simpa using hfollows, hself⟩
  · obtain ⟨o', hfollows', hheld⟩ := h.program u
    refine ⟨o', by rw [put_of_ne _ hu, hcalls, hfollows'], ?_⟩
    intro b
    exact (hothers u b hu).trans (hheld b)

/-- A call of thread `t` that takes or gives back the sleep lock of block `b`. The other threads and
the other blocks are as before. -/
theorem of_holder (h : m.Sound) {cache : Cache} {b : Nat} {v : Option ι} (hrep : cache.Rep)
    (hmine : ∀ u, u ≠ t → m.holder b ≠ some u) (hv : ∀ u, u ≠ t → v ≠ some u)
    (hb : ∀ u, v = some u → cache.Locked b)
    (hlocked : ∀ c u, c ≠ b → m.holder c = some u → cache.Locked c)
    {calls : List Call} {o : Option OpState} (hfollows : follows o calls = true)
    (hself : v = some t ↔ ∃ x ∈ o, b ∈ x.held)
    (hheld : ∀ c, c ≠ b → (m.holder c = some t ↔ ∃ x ∈ o, c ∈ x.held))
    (stage : Stage) (ctx : OpContext) :
    ({ m with cache := cache, holder := Function.update m.holder b v }.put t
      ⟨calls, stage, ctx⟩).Sound := by
  refine h.of_call (n := { m with cache := cache, holder := Function.update m.holder b v })
    hrep ?_ (fun _ => rfl) ?_ hfollows ?_ stage ctx
  · intro c u hc
    dsimp only at hc ⊢
    by_cases hcb : c = b
    · subst hcb
      rw [Function.update_self] at hc
      exact hb u hc
    · rw [Function.update_of_ne hcb] at hc
      exact hlocked c u hcb hc
  · intro u c hu
    dsimp only
    by_cases hcb : c = b
    · subst hcb
      rw [Function.update_self]
      exact iff_of_false (hv u hu) (hmine u hu)
    · rw [Function.update_of_ne hcb]
  · intro c
    dsimp only
    by_cases hcb : c = b
    · subst hcb
      rw [Function.update_self]
      exact hself
    · rw [Function.update_of_ne hcb]
      exact hheld c hcb

/-- The body of a call keeps the threads in step with their programs: it changes at most the holder
of the block that the call names. -/
theorem body (h : m.Sound) {call : Call} {calls : List Call} {ctx ctx' : OpContext}
    (hcalls : (m.threads t).calls = call :: calls)
    (hbody : m.body sb t ctx call = .ok (ctx', n)) (stage : Stage) :
    (n.put t ⟨calls, stage, ctx'⟩).Sound := by
  obtain ⟨o, hfollows, hheld⟩ := h.program t
  rw [hcalls] at hfollows
  cases call with
  | beginOp =>
    simp only [Machine.body, bind_eq_ok, Prod.exists] at hbody
    obtain ⟨ctx₁, cache, hbegin, hbody⟩ := hbody
    cases hbody
    cases o with
    | some x => simp [follows] at hfollows
    | none =>
      simp only [follows] at hfollows
      refine h.of_call (n := { m with cache := cache }) (h.rep.beginOp hbegin) ?_ (fun _ => rfl)
        (fun _ _ _ => Iff.rfl) hfollows (fun b => (hheld b).trans (by simp)) stage ctx'
      obtain ⟨-, -, rfl⟩ := cacheBeginOp_eq_ok.mp hbegin
      exact h.locked
  | acquire b =>
    simp only [Machine.body, cacheAcquire, bind_eq_ok, Prod.exists] at hbody
    obtain ⟨blk, cache, hacq, hbody⟩ := hbody
    cases hbody
    cases o with
    | none => simp [follows] at hfollows
    | some x =>
      simp only [follows, Bool.and_eq_true] at hfollows
      -- A block that somebody holds is locked, and the call would not have returned.
      have hnone : m.holder b = none := by
        by_contra hne
        obtain ⟨u, hu⟩ := Option.ne_none_iff_exists'.mp hne
        exact (h.locked b u hu).not_acquire hacq
      refine h.of_holder (h.rep.acquire hacq) (by simp [hnone]) ?_
        (fun _ _ => .of_acquire h.rep hacq)
        (fun c u _ hc => (h.locked c u hc).acquire h.rep hacq) hfollows.2 (by simp) ?_ stage ctx
      · intro u hu
        simp [hu.symm]
      · intro c hcb
        rw [hheld c]
        simp [hcb]
  | sync b =>
    simp only [Machine.body, bind_eq_ok, Prod.exists] at hbody
    obtain ⟨r, cache, hsync, hbody⟩ := hbody
    cases hbody
    cases o with
    | none => simp [follows] at hfollows
    | some x =>
      simp only [follows, Bool.and_eq_true] at hfollows
      exact h.of_call (n := { m with cache := cache }) (h.rep.sync hsync)
        (fun c u hc => (h.locked c u hc).sync hsync) (fun _ => rfl) (fun _ _ _ => Iff.rfl) hfollows.2
        (fun c => (hheld c).trans (by simp)) stage _
  | release b =>
    simp only [Machine.body, bind_eq_ok] at hbody
    obtain ⟨cache, hrel, hbody⟩ := hbody
    cases hbody
    cases o with
    | none => simp [follows] at hfollows
    | some x =>
      simp only [follows, Bool.and_eq_true, List.contains_iff_mem] at hfollows
      obtain ⟨⟨hb, -⟩, hfollows⟩ := hfollows
      -- The program releases a block only while it holds it.
      have hmine : m.holder b = some t := (hheld b).mpr ⟨x, rfl, hb⟩
      refine h.of_holder (h.rep.release hrel) ?_ (by simp) (by simp)
        (fun c u hcb hc => (h.locked c u hc).release hcb hrel) hfollows (by simp) ?_ stage ctx
      · intro u hu
        simp [hmine, hu.symm]
      · intro c hcb
        rw [hheld c]
        simp [hcb]
  | endOp =>
    simp only [Machine.body, bind_eq_ok] at hbody
    obtain ⟨cache, hend, hbody⟩ := hbody
    cases hbody
    cases o with
    | none => simp [follows] at hfollows
    | some x =>
      simp only [follows, Bool.and_eq_true, List.isEmpty_iff] at hfollows
      exact h.of_call
        (n := { m with cache := cache, threads := fun u => (m.threads u).wakeup })
        (h.rep.endOp hend) (fun c u hc => (h.locked c u hc).endOp h.rep hend)
        (fun u => wakeup_calls _) (fun _ _ _ => Iff.rfl) hfollows.2
        (fun c => (hheld c).trans (by simp [hfollows.1])) stage ctx

theorem move (h : m.Sound) (hmove : m.Move sb t n) : n.Sound := by
  cases hmove with
  | body _ hcalls hbody => exact h.body hcalls hbody .leaving
  | @release b _ cache _ hcalls hrel =>
    have hbody : m.body sb t (m.threads t).ctx (.release b) = .ok ((m.threads t).ctx,
        { m with cache := cache, holder := Function.update m.holder b none }) := by
      rw [Machine.body, hrel]
      rfl
    exact h.body hcalls hbody .ready
  | _ =>
    refine h.of_eq rfl rfl ?_
    intro u
    by_cases hu : u = t
    · subst hu
      simp
    · rw [put_of_ne _ hu]

end Sound

omit [DecidableEq ι] in
theorem start_sound (sb : SuperBlock) (disk : Disk) {programs : ι → List Call}
    (hprograms : ∀ t, follows none (programs t) = true) : (start sb disk programs).Sound := by
  refine ⟨initBcache_rep sb disk, by simp [start], ?_⟩
  intro t
  exact ⟨none, hprograms t, by simp [start]⟩

/-! ## Careless steps -/

/-- If a thread with `lock` waits for a block whose holder still needs `lock`, the holder runs into
the deadlock. Until then the holder can go on, as its calls before that one take no lock. -/
theorem Sound.exists_deadlock (h : m.Sound) (hg : m.Guarded) {b : Nat} (hwaits : m.WaitsFor t b)
    (hholder : m.holder b = some u) (hut : u ≠ t)
    (hneeds : locksBefore b (m.threads u).calls = true) :
    ∃ schedule n, m.run sb schedule = some n ∧ n.Deadlock t u b := by
  generalize hcalls : (m.threads u).calls = calls at hneeds
  induction calls generalizing m with
  | nil => simp [locksBefore] at hneeds
  | cons call calls ih =>
    obtain ⟨o, hfollows, hheld⟩ := h.program u
    rw [hcalls] at hfollows
    cases hstage : (m.threads u).stage with
    | spinning => exact ⟨[], m, rfl, hwaits, hholder, hstage⟩
    | locked =>
      have hlock := hg.owner u (.inl hstage)
      rw [hwaits.1] at hlock
      exact absurd (Option.some.inj hlock).symm hut
    | leaving =>
      have hlock := hg.owner u (.inr hstage)
      rw [hwaits.1] at hlock
      exact absurd (Option.some.inj hlock).symm hut
    | asleep =>
      -- a thread in `cache_begin_op` holds no block
      have hhead := hg.asleep u hstage
      rw [hcalls, List.head?_cons, Option.some.injEq] at hhead
      subst hhead
      obtain ⟨x, hx, -⟩ := (hheld b).mp hholder
      cases hx
      simp [follows] at hfollows
    | ready =>
      by_cases hlocks : call.locks = true
      · have hstep : m.step sb u = some (m.put u { m.threads u with stage := .spinning }) := by
          simp [step, hstage, hcalls, hlocks]
        refine ⟨[u], m.put u { m.threads u with stage := .spinning }, ?_, ⟨hwaits.1, ?_⟩, hholder,
          by simp⟩
        · simp only [run, hstep, Option.bind_some]
        · rw [put_of_ne _ hut.symm]
          exact hwaits.2
      · cases call with
        | release c =>
          have hcb : c ≠ b := by
            rintro rfl
            simp [locksBefore] at hneeds
          obtain ⟨x, rfl, -⟩ := (hheld b).mp hholder
          simp only [follows, Bool.and_eq_true, List.contains_iff_mem] at hfollows
          obtain ⟨blk, hget, -⟩ := h.locked c u ((hheld c).mpr ⟨x, rfl, hfollows.1.1⟩)
          have hrel := cacheRelease_eq_ok.mpr ⟨⟨blk, hget⟩, rfl⟩
          have hstep : m.step sb u = some ({ m with
              cache := m.cache.setBlock c Block.unlock
              holder := Function.update m.holder c none }.put u
                ⟨calls, .ready, (m.threads u).ctx⟩) := by
            simp [step, hstage, hcalls, Call.locks, Machine.body, hrel]
          have hmove := move_of_step hstep
          obtain ⟨schedule, n, hrun, hdead⟩ := ih (h.move hmove) (hg.move hmove)
            ⟨hwaits.1, by rw [put_of_ne _ hut.symm]; exact hwaits.2⟩
            (by simpa [Function.update_of_ne hcb.symm] using hholder) (by simp)
            (by simpa [locksBefore, hcb] using hneeds)
          exact ⟨u :: schedule, n, by simpa [run, hstep] using hrun, hdead⟩
        | _ => exact absurd rfl hlocks

/-- A careless step leads into a deadlock: the thread has `lock` then and waits for a block, whose
holder comes to spin for `lock` before it releases the block. -/
theorem Sound.deadlock_of_careless (h : m.Sound) (hg : m.Guarded) (hcareless : ¬ m.Careful t) :
    ∃ schedule n u b, m.run sb schedule = some n ∧ n.Deadlock t u b := by
  unfold Careful at hcareless
  split at hcareless
  · next b calls hfree hspin hcalls =>
    push Not at hcareless
    obtain ⟨u, hholder, hut, hneeds⟩ := hcareless
    have hstep : m.step sb t =
        some ({ m with lock := some t }.put t { m.threads t with stage := .locked }) := by
      simp [step, hspin, hfree]
    have hmove := move_of_step hstep
    obtain ⟨schedule, n, hrun, hdead⟩ :=
      (h.move hmove).exists_deadlock (hg.move hmove) (t := t) (u := u) (b := b)
        ⟨rfl, by simp, by simp [hcalls]⟩ hholder hut (by simpa [hut] using hneeds)
    exact ⟨t :: schedule, n, u, b, by simpa [run, hstep] using hrun, hdead⟩
  · exact absurd trivial hcareless

/-- The threads of a deadlock never get out of it. By induction on the schedule: neither of the two
can make a step, and no other thread gives away what they wait for. -/
theorem Sound.deadlock_forever (h : m.Sound) (hg : m.Guarded) {b : Nat} (hdead : m.Deadlock t u b)
    {schedule : List ι} (hrun : m.run sb schedule = some n) : n.Deadlock t u b := by
  refine (run_invariant (I := fun m => (m.Sound ∧ m.Guarded) ∧ m.Deadlock t u b) ?_
    ⟨⟨h, hg⟩, hdead⟩ hrun).2
  rintro m n v ⟨⟨h, hg⟩, ⟨hlock, hstage, hcall⟩, hholder, hspin⟩ hmove
  refine ⟨⟨h.move hmove, hg.move hmove⟩, ?_⟩
  -- `t` is in the body of `cache_acquire`, which cannot return.
  have hvt : v ≠ t := by
    rintro rfl
    cases hmove with
    | body _ hcalls hbody =>
      rw [hcalls, List.head?_cons, Option.some.injEq] at hcall
      subst hcall
      simp only [Machine.body, cacheAcquire, bind_eq_ok, Prod.exists] at hbody
      obtain ⟨blk, cache, hacq, -⟩ := hbody
      exact (h.locked b u hholder).not_acquire hacq
    | sleep _ hcalls => simp [hcalls] at hcall
    | call hstage' => rw [hstage] at hstage'; cases hstage'
    | release hstage' => rw [hstage] at hstage'; cases hstage'
    | lock hstage' => rw [hstage] at hstage'; cases hstage'
    | unlock hstage' => rw [hstage] at hstage'; cases hstage'
  -- `u` spins for `lock`, which `t` has.
  have hvu : v ≠ u := by
    rintro rfl
    cases hmove with
    | lock _ hfree => rw [hlock] at hfree; cases hfree
    | call hstage' => rw [hspin] at hstage'; cases hstage'
    | release hstage' => rw [hspin] at hstage'; cases hstage'
    | body hstage' => rw [hspin] at hstage'; cases hstage'
    | sleep hstage' => rw [hspin] at hstage'; cases hstage'
    | unlock hstage' => rw [hspin] at hstage'; cases hstage'
  have hlock' := hg.other hlock hvt hmove
  refine ⟨⟨hlock'.1, ?_, ?_⟩, ?_, ?_⟩
  · rcases (hmove.others hvt.symm).2 with heq | ⟨heq, -⟩
    · rw [heq, hstage]
    · rw [hstage] at heq
      cases heq
  · rw [(hmove.others hvt.symm).1, hcall]
  · rcases hlock'.2 with ⟨heq, -⟩ | ⟨c, hcalls, heq⟩
    · rw [heq, hholder]
    · -- what `v` releases is held by `v`, not by `u`
      obtain ⟨o, hfollows, hheld⟩ := h.program v
      have hmine : m.holder c = some v := by
        refine (hheld c).mpr ?_
        rw [hcalls] at hfollows
        cases o with
        | none => simp [follows] at hfollows
        | some x =>
          simp only [follows, Bool.and_eq_true, List.contains_iff_mem] at hfollows
          exact ⟨x, rfl, hfollows.1.1⟩
      have hcb : b ≠ c := by
        rintro rfl
        rw [hholder, Option.some.injEq] at hmine
        exact hvu hmine.symm
      rw [heq, Function.update_of_ne hcb, hholder]
  · rcases (hmove.others hvu.symm).2 with heq | ⟨heq, -⟩
    · rw [heq, hspin]
    · rw [hspin] at heq
      cases heq

/-- In a run whose steps are all careful no thread with `lock` waits for a block whose holder waits
for `lock`. Every careless step leads to that. -/
theorem deadlock_free_of_careful (sb : SuperBlock) (disk : Disk) (programs : ι → List Call)
    (hprograms : ∀ t, follows none (programs t) = true) :
    (∀ schedule n, (start sb disk programs).CarefulRun sb schedule →
      (start sb disk programs).run sb schedule = some n → ∀ t u b, ¬ n.Deadlock t u b) ∧
    (∀ schedule n t, (start sb disk programs).run sb schedule = some n → ¬ n.Careful t →
      ∃ schedule' n' u b, n.run sb schedule' = some n' ∧ n'.Deadlock t u b) := by
  refine ⟨?_, ?_⟩
  · intro schedule n hcareful hrun
    obtain ⟨hclear, hg⟩ := (start_clear sb disk programs).run (start_guarded sb disk programs)
      hcareful hrun
    exact hclear.not_deadlock hg
  · intro schedule n t hrun hcareless
    obtain ⟨hsound, hg⟩ := run_invariant (I := fun m => m.Sound ∧ m.Guarded)
      (fun u v t h hmove => ⟨h.1.move hmove, h.2.move hmove⟩)
      ⟨start_sound sb disk hprograms, start_guarded sb disk programs⟩ hrun
    exact hsound.deadlock_of_careless hg hcareless

/-- Two threads that write block 300. -/
def twoWriters (t : Nat) : List Call :=
  if t < 2 then [.beginOp, .acquire 300, .sync 300, .release 300, .endOp] else []

/-- Both programs keep to the discipline of callers. -/
theorem twoWriters_follows (t : Nat) : follows none (twoWriters t) = true := by
  unfold twoWriters
  split <;> rfl

/-- One writer after the other. -/
theorem deadlock_free_one_by_one :
    ∃ n, (start (smallSuperBlock 20) (fun _ => .zero) twoWriters).run (smallSuperBlock 20)
      (List.replicate 17 0 ++ List.replicate 17 1) = some n ∧ ∀ t u b, ¬ n.Deadlock t u b := by
  have hsome : ((start (smallSuperBlock 20) (fun _ => .zero) twoWriters).run (smallSuperBlock 20)
      (List.replicate 17 0 ++ List.replicate 17 1)).isSome = true := by
    decide +kernel
  obtain ⟨n, hn⟩ := Option.isSome_iff_exists.mp hsome
  refine ⟨n, hn, (deadlock_free_of_careful _ _ _ twoWriters_follows).1 _ n ?_ hn⟩
  decide +kernel

/-- The second writer gets `lock` while the first one holds block 300, and waits for it. The first
writer goes on to sync the block. -/
theorem deadlock_two_writers :
    (∀ t, follows none (twoWriters t) = true) ∧
    ∃ n, (start (smallSuperBlock 20) (fun _ => .zero) twoWriters).run (smallSuperBlock 20)
      (List.replicate 8 0 ++ List.replicate 6 1 ++ [0]) = some n ∧ n.Deadlock 1 0 300 := by
  refine ⟨twoWriters_follows, ?_⟩
  have hany : ((start (smallSuperBlock 20) (fun _ => .zero) twoWriters).run (smallSuperBlock 20)
      (List.replicate 8 0 ++ List.replicate 6 1 ++ [0])).any
        (fun n => decide (n.Deadlock 1 0 300)) = true := by
    decide +kernel
  obtain ⟨n, hn, hdead⟩ := (Option.any_eq_true _ _).mp hany
  exact ⟨n, hn, of_decide_eq_true hdead⟩

end Machine

end KernelAarch64.Fs
