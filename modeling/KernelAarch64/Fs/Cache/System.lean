import KernelAarch64.Fs.Cache.Log
import Mathlib.Logic.Relation

/-!
# The block cache as a system

`Sys` is the block cache together with the atomic operations that use it, and with the history a
statement about whole runs needs: which blocks have changes that were not synced, every `sync` so
far, and the moments at which something became permanent on the disk (`Event`). The history is never
read by the code.

An `Action` is one call by some thread (or an assignment to the data of a block it holds). Threads
have no other identity: a run is any sequence of actions, which covers every interleaving of the
calls of any number of threads. `Sys.Legal` is how callers use the interface: contexts are begun
once and used until they are ended, and a block is used while it is acquired.

`Action.zero` is no call of its own. It is the write of a zero block at the end of `cache_alloc`,
which with it is a sequence of the other actions (see `Fs.Cache.Bitmap`).

Everything about runs goes through three things: `Sys.step`, the action as a function; the inversion
lemmas `step_acquire`, `step_change` and so on, one for each action, which say what the function did
when it returned, and which are the only place where it is unfolded; and `Runs.invariant`, the
induction over a run. An invariant of the block cache is then one lemma for each kind of action, a
step lemma that puts them together, and one line for runs.
-/

namespace KernelAarch64.Fs

open KernelAarch64.Lib

/-- One `sync`: by which context (`none` for `NULL`), of which block, with which content. -/
structure SyncRec where
  ctx : Option Nat
  block : Nat
  data : BlockData

/-- The block and the content of a `sync`. -/
def SyncRec.write (r : SyncRec) : Nat × BlockData := (r.block, r.data)

/-- Something that outlives a power cut from the device write with number `pos` on. -/
inductive Event where
  /-- The header write of a commit. `recs` are the syncs since the last commit, `writes` the
  logged blocks with the content they are committed with. -/
  | group (pos : Nat) (recs : List SyncRec) (writes : List (Nat × BlockData))
  /-- A write that does not go through the log. -/
  | direct (pos : Nat) (block : Nat) (data : BlockData)

namespace Event

/-- The number of the device write the event happens at. -/
def pos : Event → Nat
  | .group p _ _ => p
  | .direct p _ _ => p

/-- The blocks the event makes permanent. -/
def writes : Event → List (Nat × BlockData)
  | .group _ _ ws => ws
  | .direct _ b d => [(b, d)]

/-- The syncs the event makes permanent. -/
def recs : Event → List SyncRec
  | .group _ rs _ => rs
  | .direct _ _ _ => []

end Event

/-- What happened so far. No function of the source reads it; it is what the statements about
crashes and commits speak of. -/
structure Ghost where
  /-- The context under which a block was changed and not synced since. -/
  dirty : Nat → Option Nat
  /-- Every `sync`, oldest first. -/
  hist : List SyncRec
  /-- How many of them the last commit covered. -/
  base : Nat
  events : List Event

namespace Ghost

/-- A change to block `b` under context `c`. -/
def change (g : Ghost) (c b : Nat) : Ghost :=
  { g with dirty := Function.update g.dirty b (some c) }

/-- A `sync` of block `b`. -/
def sync (g : Ghost) (c : Option Nat) (b : Nat) (d : BlockData) : Ghost :=
  { g with dirty := Function.update g.dirty b none, hist := g.hist ++ [⟨c, b, d⟩] }

/-- A device write that does not go through the log. -/
def direct (g : Ghost) (pos b : Nat) (d : BlockData) : Ghost :=
  { g with events := g.events ++ [.direct pos b d] }

/-- The header write of a commit: all syncs since the last one are one group from now on. -/
def commit (g : Ghost) (pos : Nat) (writes : List (Nat × BlockData)) : Ghost :=
  { g with
    base := g.hist.length
    events := g.events ++ [.group pos (g.hist.drop g.base) writes] }

end Ghost

/-- The block cache, the outstanding operations, and the history. A context is known by a number,
and `begun` keeps numbers from being used twice. -/
structure Sys where
  cache : Cache
  /-- The outstanding contexts. -/
  ops : List (Nat × OpContext)
  /-- Every context that was ever begun. -/
  begun : List Nat
  ghost : Ghost

/-- What threads do to the block cache. Each call runs under `lock` or on a block that the caller
has, so it is one action. -/
inductive Action where
  | acquire (b : Nat)
  | change (c b : Nat) (d : BlockData)
  | sync (c : Option Nat) (b : Nat)
  | release (b : Nat)
  | beginOp (c : Nat)
  | endOp (c : Nat)
  | alloc (c : Nat)
  | free (c b : Nat)
  | zero (b : Nat)

/-- The context `c`, if it is outstanding. -/
def findOp (c : Nat) (ops : List (Nat × OpContext)) : Option OpContext :=
  (ops.find? (·.1 = c)).map Prod.snd

/-- The contexts after a call changed `c`. -/
def setOp (c : Nat) (x : OpContext) (ops : List (Nat × OpContext)) : List (Nat × OpContext) :=
  ops.map fun p => if p.1 = c then (c, x) else p

/-- The contexts without `c`. -/
def eraseOp (c : Nat) (ops : List (Nat × OpContext)) : List (Nat × OpContext) :=
  ops.filter (·.1 ≠ c)

/-- The bitmap block that holds the bit of block `b`. -/
def bitmapBlock (sb : SuperBlock) (b : Nat) : Nat := sb.bitmapStart.toNat + b / bitPerBlock

namespace Sys

/-- Context `c` is outstanding. -/
def IsOpen (s : Sys) (c : Nat) : Prop := c ∈ s.ops.map Prod.fst

/-- Block `b` is acquired. -/
def Held (s : Sys) (b : Nat) : Prop := (getCache b s.cache.blocks).any Block.acquired = true

instance (s : Sys) (c : Nat) : Decidable (s.IsOpen c) := by
  unfold IsOpen
  infer_instance

instance (s : Sys) (b : Nat) : Decidable (s.Held b) := by
  unfold Held
  infer_instance

/-- The number of the next device write. -/
def nextPos (s : Sys) : Nat := s.cache.device.writes.length

/-- One action: the function of `cache.c` on the cache, and what it means for the operations and for
the history. A call that cannot go on is `.wait`. -/
def step (sb : SuperBlock) (s : Sys) : Action → Except Stop Sys
  | .acquire b => do
    let (_, cache) ← cacheAcquire b s.cache
    return { s with cache := cache }
  | .change c b d =>
    match getCache b s.cache.blocks with
    | none => .error .fault
    | some _ =>
      .ok { s with
        cache := s.cache.setBlock b (Block.setData d)
        ghost := s.ghost.change c b }
  | .sync none b => do
    let (_, cache) ← unsafeCacheSync none b s.cache
    let d := s.cache.dataOf b
    return { s with cache := cache, ghost := (s.ghost.sync none b d).direct s.nextPos b d }
  | .sync (some c) b =>
    match findOp c s.ops with
    | none => .error .fault
    | some ctx => do
      let (ctx', cache) ← unsafeCacheSync (some ctx) b s.cache
      return { s with
        cache := cache
        ops := setOp c (ctx'.getD ctx) s.ops
        ghost := s.ghost.sync (some c) b (s.cache.dataOf b) }
  | .release b => do
    let cache ← cacheRelease b s.cache
    return { s with cache := cache }
  | .beginOp c => do
    let (ctx, cache) ← cacheBeginOp sb s.cache
    return { s with cache := cache, ops := (c, ctx) :: s.ops, begun := c :: s.begun }
  | .endOp c =>
    match findOp c s.ops with
    | none => .error .fault
    | some ctx => do
      let cache ← cacheEndOp sb ctx s.cache
      return { s with
        cache := cache
        ops := eraseOp c s.ops
        ghost :=
          if s.cache.outstanding = 1 then
            -- `commit` writes `num_blocks` log copies and then the header.
            s.ghost.commit (s.nextPos + s.cache.header.numBlocks)
              (s.cache.header.entries.map fun b => (b, s.cache.dataOf b))
          else s.ghost }
  | .alloc c =>
    match findOp c s.ops with
    | none => .error .fault
    | some ctx => do
      let (b, ctx', cache) ← cacheAlloc sb (some ctx) s.cache
      let bm := bitmapBlock sb b
      return { s with
        cache := cache
        ops := setOp c (ctx'.getD ctx) s.ops
        ghost := ((s.ghost.change c bm).sync (some c) bm (cache.dataOf bm)).direct s.nextPos b
          .zero }
  | .free c b =>
    match findOp c s.ops with
    | none => .error .fault
    | some ctx => do
      let (ctx', cache) ← cacheFree sb (some ctx) b s.cache
      let bm := bitmapBlock sb b
      return { s with
        cache := cache
        ops := setOp c (ctx'.getD ctx) s.ops
        ghost := (s.ghost.change c bm).sync (some c) bm (cache.dataOf bm) }
  | .zero b =>
    .ok { s with
      cache := s.cache.deviceWrite b .zero
      ghost := s.ghost.direct s.nextPos b .zero }

/-- How callers use the block cache: with contexts they have begun and not ended, and blocks they
have acquired. Block numbers are of type `usize`. -/
def Legal (s : Sys) : Action → Prop
  | .acquire b => b < 2 ^ 64
  | .change c b _ => s.IsOpen c ∧ s.Held b
  | .sync none b => s.Held b
  | .sync (some c) b => s.IsOpen c ∧ s.Held b
  | .release b => s.Held b
  | .beginOp c => c ∉ s.begun
  | .endOp c => s.IsOpen c
  | .alloc c => s.IsOpen c
  | .free c b => s.IsOpen c ∧ b < 2 ^ 64
  | .zero _ => True

instance (s : Sys) (a : Action) : Decidable (s.Legal a) := by
  induction a using Action.casesOn
  case sync c b => induction c using Option.casesOn <;> dsimp only [Legal] <;> infer_instance
  all_goals dsimp only [Legal]; infer_instance

/-- The system when `init_bcache` has returned on a device with content `d`; the trace of a run
starts here. -/
def init (sb : SuperBlock) (d : Disk) : Sys where
  cache := { initBcache sb d with device := ⟨(initBcache sb d).device.disk, []⟩ }
  ops := []
  begun := []
  ghost := { dirty := fun _ => none, hist := [], base := 0, events := [] }

end Sys

/-- The runs whose steps `ok` allows and whose states after each step satisfy `post`. -/
def Runs (sb : SuperBlock) (ok : Sys → Action → Prop) (post : Sys → Prop) : Sys → Sys → Prop :=
  Relation.ReflTransGen fun s t => ∃ a, ok s a ∧ s.step sb a = .ok t ∧ post t

/-- What holds at the start of a run and is kept by each of its steps holds at its end. A step
may use how it was reached. -/
theorem Runs.invariant_from {sb : SuperBlock} {ok : Sys → Action → Prop} {post : Sys → Prop}
    {I : Sys → Prop} {s t : Sys} (h : Runs sb ok post s t) (hs : I s)
    (hstep : ∀ u v a, Runs sb ok post s u → I u → ok u a → u.step sb a = .ok v → post v →
      I v) : I t := by
  induction h with
  | refl => exact hs
  | tail hinit hlast ih =>
    obtain ⟨a, hok, hrun, hpost⟩ := hlast
    exact hstep _ _ a hinit ih hok hrun hpost

/-- `Runs.invariant_from` for steps that keep the invariant on their own. -/
theorem Runs.invariant {sb : SuperBlock} {ok : Sys → Action → Prop} {post : Sys → Prop}
    {I : Sys → Prop} {s t : Sys} (h : Runs sb ok post s t) (hs : I s)
    (hstep : ∀ u v a, I u → ok u a → u.step sb a = .ok v → post v → I v) : I t :=
  h.invariant_from hs fun u v a _ => hstep u v a

/-- Runs with laxer rules contain those with stricter ones. -/
theorem Runs.mono {sb : SuperBlock} {ok ok' : Sys → Action → Prop} {post post' : Sys → Prop}
    {s t : Sys} (h : Runs sb ok post s t) (hok : ∀ u a, ok u a → ok' u a)
    (hpost : ∀ u, post u → post' u) : Runs sb ok' post' s t := by
  refine Relation.ReflTransGen.mono ?_ _ _ h
  rintro u v ⟨a, ha, hrun, hv⟩
  exact ⟨a, hok u a ha, hrun, hpost v hv⟩

/-! ## Running a list of actions

For runs on fixed inputs: `Sys.admits` is the decidable form of `Runs`, so that `decide` can check a
whole list of actions, with the rules, at once. -/

/-- The state after a list of actions, one after the other. It stops at the first one that does not
return. -/
def Sys.exec (sb : SuperBlock) : Sys → List Action → Except Stop Sys
  | s, [] => .ok s
  | s, a :: as => do
    let t ← s.step sb a
    t.exec sb as

/-- Whether the actions make a run with the rules `ok` and `post`. This can be evaluated, so a
concrete run needs no proof by hand. -/
def Sys.admits (sb : SuperBlock) (ok : Sys → Action → Prop) (post : Sys → Prop)
    [∀ s a, Decidable (ok s a)] [DecidablePred post] : Sys → List Action → Bool
  | _, [] => true
  | s, a :: as =>
    decide (ok s a) &&
      match s.step sb a with
      | .ok t => decide (post t) && t.admits sb ok post as
      | .error _ => false

/-- A list of actions may be run in two parts. -/
theorem Sys.exec_append (sb : SuperBlock) (s : Sys) (as bs : List Action) :
    s.exec sb (as ++ bs) = (do let t ← s.exec sb as; t.exec sb bs) := by
  induction as generalizing s with
  | nil => rfl
  | cons a as ih =>
    cases h : s.step sb a with
    | error e => simp [Sys.exec, h]
    | ok t => simp [Sys.exec, h, ih]

section Admits

variable {sb : SuperBlock} {ok : Sys → Action → Prop} {post : Sys → Prop}
variable [∀ s a, Decidable (ok s a)] [DecidablePred post] {s : Sys}

/-- What the check says about the first action of a list. -/
theorem Sys.admits_cons {a : Action} {as : List Action}
    (h : s.admits sb ok post (a :: as) = true) :
    ∃ t, ok s a ∧ s.step sb a = .ok t ∧ post t ∧ t.admits sb ok post as = true := by
  simp only [Sys.admits, Bool.and_eq_true, decide_eq_true_eq] at h
  obtain ⟨hok, h⟩ := h
  cases hstep : s.step sb a with
  | error e => simp [hstep] at h
  | ok t =>
    simp only [hstep, Bool.and_eq_true, decide_eq_true_eq] at h
    exact ⟨t, hok, rfl, h.1, h.2⟩

/-- The first part of a list that passes the check is a run, and the rest passes from where it ends.
-/
theorem Sys.admits_append {as bs : List Action} (h : s.admits sb ok post (as ++ bs) = true) :
    ∃ t, s.exec sb as = .ok t ∧ Runs sb ok post s t ∧ t.admits sb ok post bs = true := by
  induction as generalizing s with
  | nil => exact ⟨s, rfl, .refl, h⟩
  | cons a as ih =>
    obtain ⟨t, hok, hstep, hpost, ht⟩ := Sys.admits_cons h
    obtain ⟨u, hu, hruns, hrest⟩ := ih ht
    refine ⟨u, ?_, .head ⟨a, hok, hstep, hpost⟩ hruns, hrest⟩
    rw [Sys.exec, hstep, ok_bind, hu]

end Admits

/-- A list that passes the check is a run. -/
theorem Runs.of_admits (sb : SuperBlock) (ok : Sys → Action → Prop) (post : Sys → Prop)
    [∀ s a, Decidable (ok s a)] [DecidablePred post] (s : Sys) (as : List Action)
    (h : s.admits sb ok post as = true) :
    ∃ t, s.exec sb as = .ok t ∧ Runs sb ok post s t := by
  rw [← List.append_nil as] at h
  obtain ⟨t, ht, hruns, -⟩ := Sys.admits_append h
  exact ⟨t, ht, hruns⟩

/-- A small disk with a log of `n` blocks, for the concrete runs: the log from block 2 on, the
inodes from 100, the bitmap at 110. -/
def smallSuperBlock (n : UInt32) : SuperBlock where
  numBlocks := 1000
  numInodes := 8
  numLogBlocks := n
  logStart := 2
  inodeStart := 100
  bitmapStart := 110

/-! ## What one action does

One lemma for each action: what `Sys.step` did when it returned. -/

section Inversion

variable {sb : SuperBlock} {s t : Sys} {b c : Nat}

/-- `cache_acquire` needs no operation: only the cache changes. -/
theorem step_acquire : s.step sb (.acquire b) = .ok t ↔
    ∃ blk cache, unsafeCacheAcquire b s.cache = .ok (blk, cache) ∧
      t = { s with cache := cache } := by
  simp only [Sys.step, cacheAcquire, bind_eq_ok, Prod.exists]
  constructor
  · rintro ⟨blk, cache, h, ht⟩
    cases ht
    exact ⟨blk, cache, h, rfl⟩
  · rintro ⟨blk, cache, h, rfl⟩
    exact ⟨blk, cache, h, rfl⟩

/-- An assignment to the data of a cached block, recorded as unsynced. -/
theorem step_change {d : BlockData} : s.step sb (.change c b d) = .ok t ↔
    (∃ blk, getCache b s.cache.blocks = some blk) ∧
      t = { s with
        cache := s.cache.setBlock b (Block.setData d), ghost := s.ghost.change c b } := by
  simp only [Sys.step]
  cases h : getCache b s.cache.blocks with
  | none => simp
  | some blk => simp [eq_comm]

/-- A `sync` without a context goes to the device at once, and is an event. -/
theorem step_sync_null : s.step sb (.sync none b) = .ok t ↔
    (∃ blk, getCache b s.cache.blocks = some blk) ∧
      t = { s with
        cache := s.cache.deviceWrite b (s.cache.dataOf b)
        ghost := (s.ghost.sync none b (s.cache.dataOf b)).direct s.nextPos b
          (s.cache.dataOf b) } := by
  simp only [Sys.step, bind_eq_ok, Prod.exists, unsafeCacheSync_null]
  constructor
  · rintro ⟨r, cache, ⟨blk, hblk, -, rfl⟩, ht⟩
    cases ht
    rw [Cache.dataOf_of_getCache hblk]
    exact ⟨⟨blk, hblk⟩, rfl⟩
  · rintro ⟨⟨blk, hblk⟩, rfl⟩
    rw [Cache.dataOf_of_getCache hblk]
    exact ⟨none, _, ⟨blk, hblk, rfl, rfl⟩, rfl⟩

/-- A `sync` under a context stays in memory; its context may count one block more. -/
theorem step_sync : s.step sb (.sync (some c) b) = .ok t ↔
    ∃ ctx ctx' cache, findOp c s.ops = some ctx ∧
      unsafeCacheSync (some ctx) b s.cache = .ok (some ctx', cache) ∧
      t = { s with
        cache := cache
        ops := setOp c ctx' s.ops
        ghost := s.ghost.sync (some c) b (s.cache.dataOf b) } := by
  simp only [Sys.step]
  cases h : findOp c s.ops with
  | none => simp
  | some ctx =>
    simp only [bind_eq_ok, Prod.exists, Option.some.injEq]
    constructor
    · rintro ⟨r, cache, hs, ht⟩
      cases ht
      -- A `sync` under a context returns that context.
      obtain ⟨ctx', rfl⟩ : ∃ ctx', r = some ctx' := by
        obtain ⟨-, ⟨-, -, rfl, -⟩ | ⟨-, -, rfl, -⟩⟩ := unsafeCacheSync_ctx.mp hs
        · exact ⟨_, rfl⟩
        · exact ⟨_, rfl⟩
      exact ⟨ctx, ctx', cache, rfl, hs, rfl⟩
    · rintro ⟨_, ctx', cache, rfl, hs, rfl⟩
      exact ⟨_, cache, hs, rfl⟩

theorem step_release : s.step sb (.release b) = .ok t ↔
    (∃ blk, getCache b s.cache.blocks = some blk) ∧
      t = { s with cache := s.cache.setBlock b Block.unlock } := by
  simp only [Sys.step, bind_eq_ok, cacheRelease_eq_ok]
  constructor
  · rintro ⟨cache, ⟨hblk, rfl⟩, ht⟩
    cases ht
    exact ⟨hblk, rfl⟩
  · rintro ⟨hblk, rfl⟩
    exact ⟨_, ⟨hblk, rfl⟩, rfl⟩

theorem step_beginOp : s.step sb (.beginOp c) = .ok t ↔
    (s.cache.outstanding + 1) * opMaxNumBlocks + s.cache.endPending ≤ sb.numLogBlocks.toNat ∧
      t = { s with
        cache := { s.cache with outstanding := s.cache.outstanding + 1 }
        ops := (c, ⟨0⟩) :: s.ops
        begun := c :: s.begun } := by
  simp only [Sys.step, bind_eq_ok, Prod.exists, cacheBeginOp_eq_ok]
  constructor
  · rintro ⟨ctx, cache, ⟨hroom, rfl, rfl⟩, ht⟩
    cases ht
    exact ⟨hroom, rfl⟩
  · rintro ⟨hroom, rfl⟩
    exact ⟨_, _, ⟨hroom, rfl, rfl⟩, rfl⟩

theorem step_endOp : s.step sb (.endOp c) = .ok t ↔
    ∃ ctx cache, findOp c s.ops = some ctx ∧ cacheEndOp sb ctx s.cache = .ok cache ∧
      t = { s with
        cache := cache
        ops := eraseOp c s.ops
        ghost :=
          if s.cache.outstanding = 1 then
            s.ghost.commit (s.nextPos + s.cache.header.numBlocks)
              (s.cache.header.entries.map fun b => (b, s.cache.dataOf b))
          else s.ghost } := by
  simp only [Sys.step]
  cases h : findOp c s.ops with
  | none => simp
  | some ctx =>
    simp only [bind_eq_ok, Option.some.injEq]
    constructor
    · rintro ⟨cache, hs, ht⟩
      cases ht
      exact ⟨ctx, cache, rfl, hs, rfl⟩
    · rintro ⟨_, cache, rfl, hs, rfl⟩
      exact ⟨cache, hs, rfl⟩

/-- `cache_end_op` when the log fits: the last operation commits. -/
theorem step_endOp_cases (hrep : s.cache.Rep) (hfits : s.cache.Fits sb)
    (hlog : 0 < sb.numLogBlocks.toNat) (h : s.step sb (.endOp c) = .ok t) :
    ∃ ctx, findOp c s.ops = some ctx ∧
    ((s.cache.outstanding = 1 ∧
        t = { s with
          cache := s.cache.committed sb
          ops := eraseOp c s.ops
          ghost := s.ghost.commit (s.nextPos + s.cache.header.numBlocks)
            (s.cache.header.entries.map fun b => (b, s.cache.dataOf b)) }) ∨
      (s.cache.outstanding ≠ 1 ∧
        t = { s with
          cache := { s.cache with
            endPending := s.cache.endPending + ctx.opsCnt
            outstanding := s.cache.outstanding - 1 }
          ops := eraseOp c s.ops })) := by
  obtain ⟨ctx, cache, hc, hend, rfl⟩ := step_endOp.mp h
  refine ⟨ctx, hc, ?_⟩
  by_cases hlast : s.cache.outstanding = 1
  · rw [cacheEndOp_last hrep hfits hlog hlast] at hend
    cases hend
    exact .inl ⟨hlast, by simp [hlast]⟩
  · obtain ⟨hlast', -⟩ | ⟨-, rfl⟩ := cacheEndOp_eq_ok.mp hend
    · exact absurd hlast' hlast
    · exact .inr ⟨hlast, by simp [hlast]⟩

theorem step_alloc : s.step sb (.alloc c) = .ok t ↔
    ∃ ctx r b cache, findOp c s.ops = some ctx ∧
      cacheAlloc sb (some ctx) s.cache = .ok (b, r, cache) ∧
      t = { s with
        cache := cache
        ops := setOp c (r.getD ctx) s.ops
        ghost := ((s.ghost.change c (bitmapBlock sb b)).sync (some c) (bitmapBlock sb b)
          (cache.dataOf (bitmapBlock sb b))).direct s.nextPos b .zero } := by
  simp only [Sys.step]
  cases h : findOp c s.ops with
  | none => simp
  | some ctx =>
    simp only [bind_eq_ok, Prod.exists, Option.some.injEq]
    constructor
    · rintro ⟨b, r, cache, hs, ht⟩
      cases ht
      exact ⟨ctx, r, b, cache, rfl, hs, rfl⟩
    · rintro ⟨_, r, b, cache, rfl, hs, rfl⟩
      exact ⟨b, r, cache, hs, rfl⟩

theorem step_free : s.step sb (.free c b) = .ok t ↔
    ∃ ctx r cache, findOp c s.ops = some ctx ∧
      cacheFree sb (some ctx) b s.cache = .ok (r, cache) ∧
      t = { s with
        cache := cache
        ops := setOp c (r.getD ctx) s.ops
        ghost := (s.ghost.change c (bitmapBlock sb b)).sync (some c) (bitmapBlock sb b)
          (cache.dataOf (bitmapBlock sb b)) } := by
  simp only [Sys.step]
  cases h : findOp c s.ops with
  | none => simp
  | some ctx =>
    simp only [bind_eq_ok, Prod.exists, Option.some.injEq]
    constructor
    · rintro ⟨r, cache, hs, ht⟩
      cases ht
      exact ⟨ctx, r, cache, rfl, hs, rfl⟩
    · rintro ⟨_, r, cache, rfl, hs, rfl⟩
      exact ⟨r, cache, hs, rfl⟩

theorem step_zero : s.step sb (.zero b) = .ok t ↔
    t = { s with
      cache := s.cache.deviceWrite b .zero, ghost := s.ghost.direct s.nextPos b .zero } := by
  simp [Sys.step, eq_comm]

end Inversion

/-! ## The list of outstanding contexts -/

section Ops

variable {c : Nat} {ctx x : OpContext} {ops : List (Nat × OpContext)}

theorem findOp_mem (h : findOp c ops = some ctx) : (c, ctx) ∈ ops := by
  simp only [findOp, Option.map_eq_some_iff] at h
  obtain ⟨p, hp, rfl⟩ := h
  have hc : p.1 = c := by simpa using List.find?_some hp
  subst hc
  exact List.mem_of_find?_eq_some hp

theorem findOp_setOp (h : findOp c ops = some ctx) : findOp c (setOp c x ops) = some x := by
  induction ops with
  | nil => simp [findOp] at h
  | cons p ops ih =>
    by_cases hp : p.1 = c
    · simp [findOp, setOp, hp]
    · have h' : findOp c ops = some ctx := by simpa [findOp, hp] using h
      simpa [findOp, setOp, hp] using ih h'

theorem setOp_setOp {y : OpContext} : setOp c y (setOp c x ops) = setOp c y ops := by
  simp only [setOp, List.map_map]
  apply List.map_congr_left
  intro p _
  by_cases hp : p.1 = c <;> simp [hp]

theorem map_fst_setOp : (setOp c x ops).map Prod.fst = ops.map Prod.fst := by
  simp only [setOp, List.map_map]
  apply List.map_congr_left
  intro p _
  simp only [Function.comp]
  split
  · next h => exact h.symm
  · rfl

/-- A context stands in one place of the list, where it is replaced or taken out. What the lemmas on
sums over the contexts need of `setOp` and `eraseOp`. -/
theorem exists_split_ops (hnd : (ops.map Prod.fst).Nodup) (hmem : (c, ctx) ∈ ops) :
    ∃ before after, ops = before ++ (c, ctx) :: after ∧
      (∀ x, setOp c x ops = before ++ (c, x) :: after) ∧ eraseOp c ops = before ++ after := by
  obtain ⟨before, after, rfl⟩ := List.append_of_mem hmem
  have hnd' : (((c, ctx) :: (before ++ after)).map Prod.fst).Nodup :=
    (List.perm_middle.map Prod.fst).nodup_iff.mp hnd
  have hother : ∀ q ∈ before ++ after, q.1 ≠ c := by
    intro q hq heq
    have hkey : q.1 ∈ (before ++ after).map Prod.fst := List.mem_map_of_mem hq
    rw [heq] at hkey
    exact (List.nodup_cons.mp hnd').1 hkey
  have hset : ∀ x, ∀ l ⊆ before ++ after, setOp c x l = l := by
    intro x l hl
    have hsame : ∀ q ∈ l, (if q.1 = c then (c, x) else q) = id q := fun q hq =>
      if_neg (hother q (hl hq))
    rw [setOp, List.map_congr_left hsame, List.map_id]
  have herase : ∀ l ⊆ before ++ after, eraseOp c l = l := by
    intro l hl
    apply List.filter_eq_self.mpr
    intro q hq
    exact decide_eq_true (hother q (hl hq))
  have hbefore := List.subset_append_left before after
  have hafter := List.subset_append_right before after
  refine ⟨before, after, rfl, ?_, ?_⟩
  · intro x
    have hcut : setOp c x (before ++ (c, ctx) :: after) =
        setOp c x before ++ (c, x) :: setOp c x after := by
      simp [setOp]
    rw [hcut, hset x before hbefore, hset x after hafter]
  · have hcut : eraseOp c (before ++ (c, ctx) :: after) = eraseOp c before ++ eraseOp c after := by
      simp [eraseOp]
    rw [hcut, herase before hbefore, herase after hafter]

/-- Replacing a context changes the sum of the counters by the difference. -/
theorem sum_setOp (hnd : (ops.map Prod.fst).Nodup) (hmem : (c, ctx) ∈ ops) :
    ((setOp c x ops).map (·.2.opsCnt)).sum + ctx.opsCnt =
      (ops.map (·.2.opsCnt)).sum + x.opsCnt := by
  obtain ⟨before, after, hops, hset, -⟩ := exists_split_ops hnd hmem
  rw [hset x, hops]
  simp only [List.map_append, List.map_cons, List.sum_append, List.sum_cons]
  omega

/-- Ending a context takes its counter off the sum and one off the number of contexts. -/
theorem sum_eraseOp (hnd : (ops.map Prod.fst).Nodup) (hmem : (c, ctx) ∈ ops) :
    ((eraseOp c ops).map (·.2.opsCnt)).sum + ctx.opsCnt = (ops.map (·.2.opsCnt)).sum ∧
      (eraseOp c ops).length + 1 = ops.length := by
  obtain ⟨before, after, hops, -, herase⟩ := exists_split_ops hnd hmem
  rw [herase, hops]
  simp only [List.map_append, List.map_cons, List.sum_append, List.sum_cons, List.length_append,
    List.length_cons]
  omega

end Ops

/-! ## Held blocks -/

/-- Changes that were not synced are in blocks that are held. -/
def Sys.DirtyHeld (s : Sys) : Prop := ∀ b, s.ghost.dirty b ≠ none → s.Held b

/-- Changes are synced before the block is released, so that no change is left in a block that
nobody holds. -/
def Sys.ReleasesClean (s : Sys) : Action → Prop
  | .release b => s.ghost.dirty b = none
  | _ => True

instance (s : Sys) (a : Action) : Decidable (s.ReleasesClean a) := by
  induction a using Action.casesOn <;> dsimp only [Sys.ReleasesClean] <;> infer_instance

section Held

variable {sb : SuperBlock} {s t : Sys} {b c : Nat}

theorem Sys.held_iff : s.Held b ↔
    ∃ blk, getCache b s.cache.blocks = some blk ∧ blk.acquired = true := by
  simp only [Sys.Held, Option.any_eq_true]

theorem held_of_getCache {blk : Block} (h : getCache b s.cache.blocks = some blk)
    (hacq : blk.acquired = true) : s.Held b :=
  Sys.held_iff.mpr ⟨blk, h, hacq⟩

/-- The block a returned `cache_acquire` points to is in the ring, and acquired. -/
theorem Cache.Rep.getCache_acquire {s s' : Cache} {b : Nat} {blk : Block} (h : s.Rep)
    (hs : unsafeCacheAcquire b s = .ok (blk, s')) :
    getCache b s'.blocks = some blk ∧ blk.acquired = true := by
  obtain ⟨a, ha, -, rfl, rfl⟩ := unsafeCacheAcquire_eq_ok.mp hs
  have hlock : getCache b ((Fs.loadBlock b s).setBlock b Block.lock).blocks = some a.lock := by
    rw [setBlock_blocks, getCache_setCache_self (f := Block.lock) (fun _ => rfl), ha]
    rfl
  exact ⟨getCache_evict_of_busy ((h.loadBlock b).lock b).nodup hlock (.inl rfl), rfl⟩

/-- Acquiring a block leaves the other busy blocks where they are. -/
theorem Cache.Rep.getCache_acquire_of_ne {s s' : Cache} {b x : Nat} {blk a : Block} (h : s.Rep)
    (hs : unsafeCacheAcquire b s = .ok (blk, s')) (hx : x ≠ b)
    (ha : getCache x s.blocks = some a) (hbusy : a.acquired = true ∨ a.pinned = true) :
    getCache x s'.blocks = some a := by
  obtain ⟨-, -, -, -, rfl⟩ := unsafeCacheAcquire_eq_ok.mp hs
  have hlock : getCache x ((Fs.loadBlock b s).setBlock b Block.lock).blocks = some a := by
    rw [setBlock_blocks, getCache_setCache_of_ne (f := Block.lock) (fun _ => rfl) hx,
      getCache_loadBlock_of_ne hx, ha]
  exact getCache_evict_of_busy ((h.loadBlock b).lock b).nodup hlock hbusy

/-- A block that could be acquired was held by nobody. -/
theorem not_held_of_acquire {blk : Block} {cache : Cache} (hrep : s.cache.Rep)
    (h : unsafeCacheAcquire b s.cache = .ok (blk, cache)) : ¬ s.Held b := by
  rw [Sys.held_iff]
  rintro ⟨a, ha, hacq⟩
  obtain ⟨a', ha', hfree, -⟩ := unsafeCacheAcquire_eq_ok.mp h
  rw [getCache_loadBlock_self, ha] at ha'
  obtain rfl : a = a' := Option.some.inj ha'
  rw [hrep.acquired_eq a (getCache_eq_some ha).1, hfree] at hacq
  cases hacq

theorem Sys.DirtyHeld.acquire (h : s.DirtyHeld) (hrep : s.cache.Rep)
    (hstep : s.step sb (.acquire b) = .ok t) : t.DirtyHeld := by
  obtain ⟨blk, cache, hacq, rfl⟩ := step_acquire.mp hstep
  intro x hx
  obtain ⟨a, ha, hacqd⟩ := Sys.held_iff.mp (h x hx)
  by_cases hxb : x = b
  · subst hxb
    obtain ⟨hget, hblk⟩ := hrep.getCache_acquire hacq
    exact held_of_getCache hget hblk
  · exact held_of_getCache (hrep.getCache_acquire_of_ne hacq hxb ha (.inl hacqd)) hacqd

/-- Assignments that keep `acquired`. -/
theorem Sys.Held.setBlock {f : Block → Block} {x : Nat} (h : s.Held x)
    (hno : ∀ blk, (f blk).blockNo = blk.blockNo)
    (hacq : ∀ blk, (f blk).acquired = blk.acquired)
    (hcache : t.cache.blocks = setCache b f s.cache.blocks) : t.Held x := by
  obtain ⟨a, ha, hacqd⟩ := Sys.held_iff.mp h
  by_cases hx : x = b
  · subst hx
    refine Sys.held_iff.mpr ⟨f a, ?_, (hacq a).trans hacqd⟩
    rw [hcache, getCache_setCache_self hno, ha]
    rfl
  · refine Sys.held_iff.mpr ⟨a, ?_, hacqd⟩
    rw [hcache, getCache_setCache_of_ne hno hx, ha]

theorem Sys.DirtyHeld.release (h : s.DirtyHeld) (hclean : s.ghost.dirty b = none)
    (hstep : s.step sb (.release b) = .ok t) : t.DirtyHeld := by
  obtain ⟨-, rfl⟩ := step_release.mp hstep
  intro x hx
  have hxb : x ≠ b := by
    rintro rfl
    exact hx hclean
  obtain ⟨a, ha, hacqd⟩ := Sys.held_iff.mp (h x hx)
  refine Sys.held_iff.mpr ⟨a, ?_, hacqd⟩
  rw [Cache.setBlock_blocks, getCache_setCache_of_ne (f := Block.unlock) (fun _ => rfl) hxb, ha]

theorem Sys.DirtyHeld.change {d : BlockData} (h : s.DirtyHeld) (hb : s.Held b)
    (hstep : s.step sb (.change c b d) = .ok t) : t.DirtyHeld := by
  obtain ⟨-, rfl⟩ := step_change.mp hstep
  intro x hx
  have hheld : s.Held x := by
    by_cases hxb : x = b
    · rwa [hxb]
    · apply h x
      simpa [Ghost.change, Function.update_of_ne hxb] using hx
  exact hheld.setBlock (f := Block.setData d) (fun _ => rfl) (fun _ => rfl) rfl

/-- A `sync` makes a block clean. -/
theorem Sys.DirtyHeld.of_sync (h : s.DirtyHeld) (hheld : ∀ x, s.Held x → t.Held x)
    (hdirty : t.ghost.dirty = Function.update s.ghost.dirty b none) : t.DirtyHeld := by
  intro x hx
  rw [hdirty] at hx
  refine hheld x (h x ?_)
  intro hnone
  apply hx
  by_cases hxb : x = b
  · simp [hxb]
  · simp [Function.update_of_ne hxb, hnone]

theorem Sys.DirtyHeld.sync (h : s.DirtyHeld) (hstep : s.step sb (.sync (some c) b) = .ok t) :
    t.DirtyHeld := by
  obtain ⟨ctx, ctx', cache, -, hsync, rfl⟩ := step_sync.mp hstep
  refine h.of_sync ?_ rfl
  intro x hx
  obtain ⟨-, ⟨-, -, -, rfl⟩ | ⟨-, -, -, rfl⟩⟩ := unsafeCacheSync_ctx.mp hsync
  all_goals exact hx.setBlock (f := Block.pin) (fun _ => rfl) (fun _ => rfl) rfl

end Held

end KernelAarch64.Fs
