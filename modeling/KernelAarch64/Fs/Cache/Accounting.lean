import KernelAarch64.Fs.Cache.Bitmap

/-!
# The invariants of every run

Two invariants that hold in every state the callers of the block cache can bring about, whatever
is on the disk: the representation invariant `Cache.Rep`, and the accounting of the log
reservations.

For the accounting only a few counters matter. `Counters.Step` is what a call can do to them, and
`Sys.step_counters` says that every action of the system is such a step. The invariant is then
proved of the counters alone.

The first main result is `reachable_cache_rep`. The second one is `Counters.Step.accounting` with
`Sys.step_counters`, from which `Runs.accounting` follows by induction over the run: the equations
of `Counters.Accounting` hold as long as every push stays in the header (`Sys.InHeader`), which a
log of at most `LOG_MAX_SIZE` blocks ensures by itself (`Counters.Accounting.inHeader`).
-/

namespace KernelAarch64.Fs

open KernelAarch64.Lib

/-! ## The representation invariant

It needs nothing of the callers: every action that returns keeps it. -/

section Rep

variable {sb : SuperBlock} {s t : Sys}

theorem Flipped.rep {ctx r : Option OpContext} {bm j : Nat} {was : Bool}
    {f : BlockData → Nat → BlockData} {s t : Cache} (h : Flipped ctx bm j was f s r t)
    (hs : s.Rep) : t.Rep := by
  obtain ⟨blk, u, v, hacq, -, hsync, hrel⟩ := h.run
  exact (((hs.acquire hacq).setData bm _).sync hsync).release hrel

/-- Every action keeps the representation invariant. One case for each action, and each of them is
the lemma about the function of `cache.c` that it calls. -/
theorem Sys.rep_step {a : Action} (hs : s.cache.Rep) (h : s.step sb a = .ok t) :
    t.cache.Rep := by
  cases a with
  | acquire b =>
    obtain ⟨blk, cache, hacq, rfl⟩ := step_acquire.mp h
    exact hs.acquire hacq
  | change c b d =>
    obtain ⟨-, rfl⟩ := step_change.mp h
    exact hs.setData b d
  | sync c b =>
    cases c with
    | none =>
      obtain ⟨-, rfl⟩ := step_sync_null.mp h
      exact hs.deviceWrite b _
    | some c =>
      obtain ⟨ctx, ctx', cache, -, hsync, rfl⟩ := step_sync.mp h
      exact hs.sync hsync
  | release b =>
    obtain ⟨-, rfl⟩ := step_release.mp h
    exact hs.unlock b
  | beginOp c =>
    obtain ⟨hroom, rfl⟩ := step_beginOp.mp h
    exact hs.beginOp (cacheBeginOp_eq_ok.mpr ⟨hroom, rfl, rfl⟩)
  | endOp c =>
    obtain ⟨ctx, cache, -, hend, rfl⟩ := step_endOp.mp h
    exact hs.endOp hend
  | alloc c =>
    obtain ⟨ctx, r, b, cache, -, halloc, rfl⟩ := step_alloc.mp h
    obtain ⟨-, u, v, hscan, hflip, rfl⟩ := cacheAlloc_eq_ok halloc
    exact (hflip.rep (hscan.rep hs)).deviceWrite b _
  | free c b =>
    obtain ⟨ctx, r, cache, -, hfree, rfl⟩ := step_free.mp h
    exact (cacheFree_eq_ok hfree).rep hs
  | zero b =>
    cases step_zero.mp h
    exact hs.deviceWrite b _

theorem Sys.init_rep (sb : SuperBlock) (d : Disk) : (Sys.init sb d).cache.Rep := by
  have h := initBcache_rep sb d
  exact ⟨h.count, h.nodup, h.entries_nodup, h.pinned_iff, h.cached, h.acquired_eq, h.valid⟩

theorem Runs.rep {ok : Sys → Action → Prop} {post : Sys → Prop} (h : Runs sb ok post s t)
    (hs : s.cache.Rep) : t.cache.Rep :=
  h.invariant hs fun _ _ _ hu _ hstep _ => Sys.rep_step hu hstep

end Rep

/-- The representation invariant of the block cache holds after `init_bcache` and any sequence of
calls; so `commit` finds every logged block. -/
theorem reachable_cache_rep (sb : SuperBlock) (d : Disk) {s : Sys}
    (h : Runs sb Sys.Legal (fun u => u.cache.header.numBlocks ≤ logCapacity sb)
      (Sys.init sb d) s) :
    s.cache.cachedNum = s.cache.blocks.length ∧
    (s.cache.blocks.map Block.blockNo).Nodup ∧
    s.cache.header.entries.Nodup ∧
    (∀ blk ∈ s.cache.blocks, blk.pinned = true ↔ blk.blockNo ∈ s.cache.header.entries) ∧
    (∀ b ∈ s.cache.header.entries, ∃ blk ∈ s.cache.blocks,
      blk.blockNo = b ∧ getCache b s.cache.blocks = some blk) ∧
    ∃ t, commit sb s.cache = .ok t := by
  have hrep : s.cache.Rep := h.rep (Sys.init_rep sb d)
  refine ⟨hrep.count, hrep.nodup, hrep.entries_nodup, hrep.pinned_iff, ?_, ?_⟩
  · intro b hb
    obtain ⟨blk, hmem, rfl⟩ := hrep.cached b hb
    exact ⟨blk, hmem, rfl, hrep.getCache_of_mem hmem⟩
  · obtain ⟨g, dev, heq⟩ := commit_frame sb hrep
    exact ⟨_, heq⟩

/-- An operation that logs a data block and a bitmap block, the two kinds of blocks that the header
counts. -/
def logAndAlloc : List Action :=
  [.beginOp 0, .acquire 200, .change 0 200 (fun _ => 7), .sync (some 0) 200, .alloc 0,
    .release 200]

theorem reachable_cache_rep_alloc : ∃ s t,
    (Sys.init (smallSuperBlock 20) fun _ => .zero).exec (smallSuperBlock 20) logAndAlloc =
      .ok s ∧
    s.cache.cachedNum = s.cache.blocks.length ∧ commit (smallSuperBlock 20) s.cache = .ok t := by
  obtain ⟨s, hexec, hruns⟩ := Runs.of_admits (smallSuperBlock 20) Sys.Legal
    (fun u => u.cache.header.numBlocks ≤ logCapacity (smallSuperBlock 20))
    (Sys.init (smallSuperBlock 20) fun _ => .zero) logAndAlloc (by decide +kernel)
  obtain ⟨hcount, -, -, -, -, t, ht⟩ := reachable_cache_rep _ _ hruns
  exact ⟨s, t, hexec, hcount, ht⟩

/-! ## The counters

A log entry is counted twice, by the header and by the context that made it; when the context ends
its count moves to `end_pending`, and a commit clears all of them. The reservation of an operation
is `OP_MAX_NUM_BLOCKS`, whatever it will need. -/

/-- The part of the system that `cache_begin_op` decides on, with the contexts behind the numbers.
It is kept apart since the rest of the cache plays no part in the accounting. -/
structure Counters where
  ops : List (Nat × OpContext)
  begun : List Nat
  outstanding : Nat
  endPending : Nat
  numBlocks : Nat

/-- What the accounting sees of a state of the system: the counters of the cache and the contexts
that are open, without a block or a disk. -/
def Sys.counters (s : Sys) : Counters where
  ops := s.ops
  begun := s.begun
  outstanding := s.cache.outstanding
  endPending := s.cache.endPending
  numBlocks := s.cache.header.numBlocks

/-- What a call does to the counters, with a log of `limit` blocks. A call that leaves all of them
as they are is `same`, and most are. -/
inductive Counters.Step (limit : Nat) : Counters → Counters → Prop
  | same {k : Counters} : Step limit k k
  /-- A `sync`: a new log entry is counted by its context too. -/
  | count {k : Counters} {c n : Nat} {ctx ctx' : OpContext} :
    (c, ctx) ∈ k.ops → ctx'.opsCnt ≤ opMaxNumBlocks →
    n + ctx.opsCnt = k.numBlocks + ctx'.opsCnt →
    Step limit k { k with ops := setOp c ctx' k.ops, numBlocks := n }
  | begin {k : Counters} {c : Nat} :
    c ∉ k.begun → (k.outstanding + 1) * opMaxNumBlocks + k.endPending ≤ limit →
    Step limit k
      { k with
        ops := (c, ⟨0⟩) :: k.ops, begun := c :: k.begun, outstanding := k.outstanding + 1 }
  /-- The last `end_op` of a group commits and clears the header. -/
  | commit {k : Counters} {c : Nat} {ctx : OpContext} :
    (c, ctx) ∈ k.ops → k.outstanding = 1 →
    Step limit k
      { k with
        ops := eraseOp c k.ops, outstanding := k.outstanding - 1, endPending := 0,
        numBlocks := 0 }
  | leave {k : Counters} {c : Nat} {ctx : OpContext} :
    (c, ctx) ∈ k.ops → k.outstanding ≠ 1 →
    Step limit k
      { k with
        ops := eraseOp c k.ops, outstanding := k.outstanding - 1,
        endPending := k.endPending + ctx.opsCnt }

/-- The accounting of the log reservations: the log holds what the ended operations left and what
the open ones have logged, and there is still room for all that the open ones may log. -/
structure Counters.Accounting (limit : Nat) (k : Counters) : Prop where
  nodup : (k.ops.map Prod.fst).Nodup
  begun : ∀ c ∈ k.ops.map Prod.fst, c ∈ k.begun
  outstanding : k.outstanding = k.ops.length
  total : k.numBlocks = k.endPending + (k.ops.map (·.2.opsCnt)).sum
  limited : ∀ p ∈ k.ops, p.2.opsCnt ≤ opMaxNumBlocks
  reserved : opMaxNumBlocks * k.outstanding + k.endPending ≤ limit
  idle : k.ops = [] → k.endPending = 0

/-- A context in the list after a call is the one that the call changed, or an old one. -/
theorem mem_setOp {c : Nat} {x : OpContext} {ops : List (Nat × OpContext)}
    {p : Nat × OpContext} (h : p ∈ setOp c x ops) : p = (c, x) ∨ p ∈ ops ∧ p.1 ≠ c := by
  obtain ⟨q, hq, rfl⟩ := List.mem_map.mp h
  split
  · exact .inl rfl
  · next hne => exact .inr ⟨hq, hne⟩

theorem eraseOp_sublist (c : Nat) (ops : List (Nat × OpContext)) :
    (eraseOp c ops).Sublist ops := List.filter_sublist

namespace Counters.Accounting

variable {limit : Nat} {k : Counters} {c n : Nat} {ctx ctx' : OpContext}

/-- A context of an outstanding operation logs blocks: what it counts more, the header lists more.
-/
theorem count (hk : k.Accounting limit) (hmem : (c, ctx) ∈ k.ops)
    (hle : ctx'.opsCnt ≤ opMaxNumBlocks) (hn : n + ctx.opsCnt = k.numBlocks + ctx'.opsCnt) :
    Counters.Accounting limit { k with ops := setOp c ctx' k.ops, numBlocks := n } := by
  have hsum := sum_setOp (x := ctx') hk.nodup hmem
  have htotal := hk.total
  constructor
  case nodup => simpa [map_fst_setOp] using hk.nodup
  case begun => simpa only [map_fst_setOp] using hk.begun
  case outstanding => simpa [setOp] using hk.outstanding
  case total =>
    show n = k.endPending + ((setOp c ctx' k.ops).map (·.2.opsCnt)).sum
    omega
  case limited =>
    intro p hp
    rcases mem_setOp hp with rfl | ⟨hp, -⟩
    · exact hle
    · exact hk.limited p hp
  case reserved => exact hk.reserved
  case idle =>
    intro hnil
    exact hk.idle (by simpa [setOp] using hnil)

/-- A new operation reserves as many blocks as an operation may log, which is what the test of
`cache_begin_op` has made sure of. -/
theorem begin (hk : k.Accounting limit) (hc : c ∉ k.begun)
    (hroom : (k.outstanding + 1) * opMaxNumBlocks + k.endPending ≤ limit) :
    Counters.Accounting limit
      { k with
        ops := (c, ⟨0⟩) :: k.ops, begun := c :: k.begun, outstanding := k.outstanding + 1 } := by
  constructor
  case nodup =>
    rw [List.map_cons, List.nodup_cons]
    exact ⟨fun hmem => hc (hk.begun c hmem), hk.nodup⟩
  case begun =>
    intro c' hc'
    rcases List.mem_cons.mp hc' with rfl | hc'
    · exact List.mem_cons_self
    · exact List.mem_cons_of_mem _ (hk.begun c' hc')
  case outstanding => simpa using hk.outstanding
  case total => simpa using hk.total
  case limited =>
    intro p hp
    rcases List.mem_cons.mp hp with rfl | hp
    · exact Nat.zero_le _
    · exact hk.limited p hp
  case reserved =>
    show opMaxNumBlocks * (k.outstanding + 1) + k.endPending ≤ limit
    rwa [Nat.mul_comm]
  case idle =>
    intro hnil
    cases hnil

theorem commit (hk : k.Accounting limit) (hmem : (c, ctx) ∈ k.ops) (hlast : k.outstanding = 1) :
    Counters.Accounting limit
      { k with
        ops := eraseOp c k.ops, outstanding := k.outstanding - 1, endPending := 0,
        numBlocks := 0 } := by
  obtain ⟨-, hlen⟩ := sum_eraseOp hk.nodup hmem
  have hops : (eraseOp c k.ops).length = 0 := by
    have := hk.outstanding
    omega
  have hnil : eraseOp c k.ops = [] := List.length_eq_zero_iff.mp hops
  constructor
  case nodup => simp [hnil]
  case begun => simp [hnil]
  case outstanding =>
    show k.outstanding - 1 = (eraseOp c k.ops).length
    omega
  case total => simp [hnil]
  case limited => simp [hnil]
  case reserved =>
    show opMaxNumBlocks * (k.outstanding - 1) + 0 ≤ limit
    simp [hlast]
  case idle => exact fun _ => rfl

/-- An operation ends and others go on: what it has logged moves from its context to `end_pending`.
-/
theorem leave (hk : k.Accounting limit) (hmem : (c, ctx) ∈ k.ops) (hmore : k.outstanding ≠ 1) :
    Counters.Accounting limit
      { k with
        ops := eraseOp c k.ops, outstanding := k.outstanding - 1,
        endPending := k.endPending + ctx.opsCnt } := by
  obtain ⟨hsum, hlen⟩ := sum_eraseOp hk.nodup hmem
  have hout := hk.outstanding
  have htotal := hk.total
  have hroom := hk.reserved
  have hctx : ctx.opsCnt ≤ opMaxNumBlocks := hk.limited _ hmem
  constructor
  case nodup => exact hk.nodup.sublist ((eraseOp_sublist c k.ops).map _)
  case begun => exact fun c' hc' => hk.begun c' (((eraseOp_sublist c k.ops).map _).subset hc')
  case outstanding =>
    show k.outstanding - 1 = (eraseOp c k.ops).length
    omega
  case total =>
    show k.numBlocks = k.endPending + ctx.opsCnt + ((eraseOp c k.ops).map (·.2.opsCnt)).sum
    omega
  case limited => exact fun p hp => hk.limited p ((eraseOp_sublist c k.ops).subset hp)
  case reserved =>
    -- The reservation of the context covers the entries it leaves behind.
    show opMaxNumBlocks * (k.outstanding - 1) + (k.endPending + ctx.opsCnt) ≤ limit
    unfold opMaxNumBlocks at hroom hctx ⊢
    omega
  case idle =>
    intro hnil
    have : (eraseOp c k.ops).length = 0 := by simpa using congrArg List.length hnil
    omega

end Counters.Accounting

/-- Every step of the counters keeps the accounting. -/
theorem Counters.Step.accounting {limit : Nat} {k k' : Counters} (h : Counters.Step limit k k')
    (hk : k.Accounting limit) : k'.Accounting limit := by
  cases h with
  | same => exact hk
  | count hmem hle hn => exact hk.count hmem hle hn
  | begin hc hroom => exact hk.begin hc hroom
  | commit hmem hlast => exact hk.commit hmem hlast
  | leave hmem hmore => exact hk.leave hmem hmore

/-- Contexts that have been begun stay begun. -/
theorem Counters.Step.begun_subset {limit : Nat} {k k' : Counters}
    (h : Counters.Step limit k k') : k.begun ⊆ k'.begun := by
  cases h with
  | begin => exact List.subset_cons_self _ _
  | _ => exact List.Subset.refl _

/-- A context that was begun is never begun again. -/
theorem Counters.Step.isOpen {limit : Nat} {k k' : Counters} (h : Counters.Step limit k k')
    {c : Nat} (hc : c ∈ k.begun) (ho : c ∈ k'.ops.map Prod.fst) : c ∈ k.ops.map Prod.fst := by
  cases h with
  | same => exact ho
  | count => simpa only [map_fst_setOp] using ho
  | begin hnew =>
    rcases List.mem_cons.mp ho with rfl | ho
    · exact absurd hc hnew
    · exact ho
  | commit => exact ((eraseOp_sublist _ k.ops).map _).subset ho
  | leave => exact ((eraseOp_sublist _ k.ops).map _).subset ho

/-! ## The actions are steps of the counters

`cache_alloc` and `cache_free` sync one bitmap block under their context, so that for the counters
they are a `sync`; the other calls are the steps of the same name, or no step at all. -/

section Simulation

variable {sb : SuperBlock} {s t : Sys}

/-- A `sync` of the cache counts what it logs. -/
theorem unsafeCacheSync_count {ctx : OpContext} {b : Nat} {s s' : Cache} {r : Option OpContext}
    (h : unsafeCacheSync (some ctx) b s = .ok (r, s')) :
    ∃ ctx', r = some ctx' ∧ ctx'.opsCnt ≤ opMaxNumBlocks ∧
      s'.header.numBlocks + ctx.opsCnt = s.header.numBlocks + ctx'.opsCnt ∧
      s'.outstanding = s.outstanding ∧ s'.endPending = s.endPending := by
  obtain ⟨-, ⟨-, hle, rfl, rfl⟩ | ⟨-, hle, rfl, rfl⟩⟩ := unsafeCacheSync_ctx.mp h
  · exact ⟨_, rfl, hle, rfl, rfl, rfl⟩
  · refine ⟨_, rfl, hle, ?_, rfl, rfl⟩
    simp only [Cache.setBlock_header, LogHeader.numBlocks_push]
    omega

/-- Reading a block in moves no counter. -/
theorem unsafeCacheAcquire_count {b : Nat} {blk : Block} {s s' : Cache}
    (h : unsafeCacheAcquire b s = .ok (blk, s')) :
    s'.header.numBlocks = s.header.numBlocks ∧ s'.outstanding = s.outstanding ∧
      s'.endPending = s.endPending := by
  obtain ⟨-, -, -, -, rfl⟩ := unsafeCacheAcquire_eq_ok.mp h
  simp

/-- Looking for a free block in the bitmap only reads blocks in. -/
theorem Scanned.count {s t : Cache} (h : Scanned s t) :
    t.header.numBlocks = s.header.numBlocks ∧ t.outstanding = s.outstanding ∧
      t.endPending = s.endPending := by
  induction h with
  | refl => exact ⟨rfl, rfl, rfl⟩
  | tail _ hlast ih =>
    obtain ⟨x, blk, u, -, hacq, hrel⟩ := hlast
    obtain ⟨-, rfl⟩ := cacheRelease_eq_ok.mp hrel
    obtain ⟨hn, ho, he⟩ := unsafeCacheAcquire_count hacq
    exact ⟨hn.trans ih.1, ho.trans ih.2.1, he.trans ih.2.2⟩

theorem Flipped.count {ctx : OpContext} {r : Option OpContext} {bm j : Nat} {was : Bool}
    {f : BlockData → Nat → BlockData} {s t : Cache} (h : Flipped (some ctx) bm j was f s r t) :
    ∃ ctx', r = some ctx' ∧ ctx'.opsCnt ≤ opMaxNumBlocks ∧
      t.header.numBlocks + ctx.opsCnt = s.header.numBlocks + ctx'.opsCnt ∧
      t.outstanding = s.outstanding ∧ t.endPending = s.endPending := by
  obtain ⟨blk, u, v, hacq, -, hsync, hrel⟩ := h.run
  obtain ⟨-, rfl⟩ := cacheRelease_eq_ok.mp hrel
  obtain ⟨hn, ho, he⟩ := unsafeCacheAcquire_count hacq
  obtain ⟨ctx', hr, hle, hsum, hout, hpend⟩ := unsafeCacheSync_count hsync
  refine ⟨ctx', hr, hle, ?_, hout.trans ho, hpend.trans he⟩
  rw [← hn]
  exact hsum

/-- A call that syncs under context `c` is a step of the counters. -/
theorem counters_of_count {c : Nat} {ctx ctx' : OpContext} {cache : Cache}
    (hc : findOp c s.ops = some ctx) (hle : ctx'.opsCnt ≤ opMaxNumBlocks)
    (hsum : cache.header.numBlocks + ctx.opsCnt = s.cache.header.numBlocks + ctx'.opsCnt)
    (hout : cache.outstanding = s.cache.outstanding)
    (hend : cache.endPending = s.cache.endPending) (limit : Nat) (ghost : Ghost) :
    Counters.Step limit s.counters
      (Sys.counters ⟨cache, setOp c ctx' s.ops, s.begun, ghost⟩) := by
  have heq : Sys.counters ⟨cache, setOp c ctx' s.ops, s.begun, ghost⟩ =
      { s.counters with ops := setOp c ctx' s.ops, numBlocks := cache.header.numBlocks } := by
    simp only [Sys.counters, hout, hend]
  rw [heq]
  exact .count (findOp_mem hc) hle hsum

/-- Every action is a step of the counters. The one that needs an argument is `sync`: the header and
the context count the same new block. -/
theorem Sys.step_counters {a : Action} (hlegal : s.Legal a) (h : s.step sb a = .ok t) :
    Counters.Step sb.numLogBlocks.toNat s.counters t.counters := by
  cases a with
  | acquire b =>
    obtain ⟨blk, cache, hacq, rfl⟩ := step_acquire.mp h
    obtain ⟨hn, ho, he⟩ := unsafeCacheAcquire_count hacq
    simp only [Sys.counters, hn, ho, he]
    exact .same
  | change c b d =>
    obtain ⟨-, rfl⟩ := step_change.mp h
    exact .same
  | sync c b =>
    cases c with
    | none =>
      obtain ⟨-, rfl⟩ := step_sync_null.mp h
      exact .same
    | some c =>
      obtain ⟨ctx, ctx', cache, hc, hsync, rfl⟩ := step_sync.mp h
      obtain ⟨_, hr, hle, hsum, hout, hend⟩ := unsafeCacheSync_count hsync
      cases hr
      exact counters_of_count hc hle hsum hout hend _ _
  | release b =>
    obtain ⟨-, rfl⟩ := step_release.mp h
    exact .same
  | beginOp c =>
    obtain ⟨hroom, rfl⟩ := step_beginOp.mp h
    exact .begin hlegal hroom
  | endOp c =>
    obtain ⟨ctx, cache, hc, hend, rfl⟩ := step_endOp.mp h
    -- The last operation commits, an earlier one leaves its entries behind.
    rcases cacheEndOp_eq_ok.mp hend with ⟨hlast, u, hu, rfl⟩ | ⟨hmore, rfl⟩
    · obtain ⟨hnum, hout⟩ := commit_count hu
      simp only [Sys.counters, hnum, hout]
      exact .commit (k := s.counters) (findOp_mem hc) hlast
    · exact .leave (k := s.counters) (findOp_mem hc) hmore
  | alloc c =>
    obtain ⟨ctx, r, b, cache, hc, halloc, rfl⟩ := step_alloc.mp h
    -- The search counts nothing; the bitmap block counts as a `sync` of it does.
    obtain ⟨-, u, v, hscan, hflip, rfl⟩ := cacheAlloc_eq_ok halloc
    obtain ⟨hn, ho, he⟩ := hscan.count
    obtain ⟨ctx', rfl, hle, hsum, hout, hend⟩ := hflip.count
    rw [hn] at hsum
    refine counters_of_count hc hle ?_ ?_ ?_ _ _
    · exact hsum
    · exact hout.trans ho
    · exact hend.trans he
  | free c b =>
    obtain ⟨ctx, r, cache, hc, hfree, rfl⟩ := step_free.mp h
    obtain ⟨ctx', rfl, hle, hsum, hout, hend⟩ := (cacheFree_eq_ok hfree).count
    exact counters_of_count hc hle hsum hout hend _ _
  | zero b =>
    cases step_zero.mp h
    exact .same

/-- An operation can be ended only if the log had room for it. -/
theorem log_pos_of_endOp {c : Nat} (hacc : s.counters.Accounting sb.numLogBlocks.toNat)
    (h : s.step sb (.endOp c) = .ok t) : 0 < sb.numLogBlocks.toNat := by
  obtain ⟨ctx, -, hc, -⟩ := step_endOp.mp h
  have hlen : 0 < s.ops.length := List.length_pos_of_mem (findOp_mem hc)
  have hout : s.counters.outstanding = s.ops.length := hacc.outstanding
  have hres := hacc.reserved
  unfold opMaxNumBlocks at hres
  omega

/-- The operation that ends last is the only one left. -/
theorem ops_of_last {c limit : Nat} {ctx : OpContext} (hacc : s.counters.Accounting limit)
    (hc : findOp c s.ops = some ctx) (hlast : s.cache.outstanding = 1) :
    s.ops = [(c, ctx)] := by
  have hlen : s.ops.length = 1 := hacc.outstanding.symm.trans hlast
  obtain ⟨p, hp⟩ := List.length_eq_one_iff.mp hlen
  have hmem := findOp_mem hc
  rw [hp, List.mem_singleton] at hmem
  rw [hp, hmem]

/-- The end of one operation leaves the others open. -/
theorem isOpen_eraseOp {c c' : Nat} (h : s.IsOpen c') (hne : c' ≠ c) :
    c' ∈ (eraseOp c s.ops).map Prod.fst := by
  obtain ⟨p, hp, rfl⟩ := List.mem_map.mp h
  exact List.mem_map_of_mem (List.mem_filter.mpr ⟨hp, by simpa using hne⟩)

/-- Nothing is outstanding after `init_bcache`. -/
theorem Sys.init_accounting (sb : SuperBlock) (d : Disk) (limit : Nat) :
    (Sys.init sb d).counters.Accounting limit := by
  obtain ⟨h, dev, heq⟩ := initBcache_eq sb d
  have hinit : (Sys.init sb d).counters = ⟨[], [], 0, 0, 0⟩ := by
    rw [Sys.counters, Sys.init, heq]
    rfl
  rw [hinit]
  constructor <;> simp

theorem Runs.accounting {ok : Sys → Action → Prop} {post : Sys → Prop} (h : Runs sb ok post s t)
    (hok : ∀ u a, ok u a → u.Legal a) (hs : s.counters.Accounting sb.numLogBlocks.toNat) :
    t.counters.Accounting sb.numLogBlocks.toNat :=
  h.invariant (I := fun u => u.counters.Accounting sb.numLogBlocks.toNat) hs
    fun _ _ _ hu hlegal hstep _ => (Sys.step_counters (hok _ _ hlegal) hstep).accounting hu

end Simulation

/-! ## The accounting of the system

The same in the fields of `cache.c`, as callers of `cache_begin_op` meet it. -/

/-- Every log entry is accounted for: by the context that made it while it is outstanding, and by
`end_pending` afterwards. The reservations do not exceed the log, and an idle cache has none, so
that a `cache_begin_op` that waits then goes on. -/
structure Sys.Accounted (sb : SuperBlock) (s : Sys) : Prop where
  outstanding : s.cache.outstanding = s.ops.length
  total : s.cache.header.numBlocks = s.cache.endPending + (s.ops.map (·.2.opsCnt)).sum
  limited : ∀ p ∈ s.ops, p.2.opsCnt ≤ opMaxNumBlocks
  reserved : opMaxNumBlocks * s.cache.outstanding + s.cache.endPending ≤ sb.numLogBlocks.toNat
  idle : s.cache.outstanding = 0 → s.cache.endPending = 0 ∧ s.cache.header.numBlocks = 0 ∧
    (opMaxNumBlocks ≤ sb.numLogBlocks.toNat → ∃ ctx t, cacheBeginOp sb s.cache = .ok (ctx, t))

/-- The entries of the log lie in `header.block_no`, which has `LOG_MAX_SIZE` of them. -/
def Sys.InHeader (s : Sys) : Prop := s.cache.header.numBlocks ≤ logMaxSize

instance : DecidablePred Sys.InHeader := fun s =>
  inferInstanceAs (Decidable (s.cache.header.numBlocks ≤ logMaxSize))

theorem Counters.Accounting.accounted {sb : SuperBlock} {s : Sys}
    (h : s.counters.Accounting sb.numLogBlocks.toNat) : s.Accounted sb := by
  refine ⟨h.outstanding, h.total, h.limited, h.reserved, ?_⟩
  intro hidle
  have hops : s.ops = [] := by
    have hlen : s.cache.outstanding = s.ops.length := h.outstanding
    exact List.length_eq_zero_iff.mp (by omega)
  have hend : s.cache.endPending = 0 := h.idle hops
  have htotal : s.cache.header.numBlocks = s.cache.endPending + (s.ops.map (·.2.opsCnt)).sum :=
    h.total
  refine ⟨hend, by simp [htotal, hend, hops], ?_⟩
  intro hlog
  refine ⟨⟨0⟩, _, cacheBeginOp_eq_ok.mpr ⟨?_, rfl, rfl⟩⟩
  rw [hidle, hend]
  simpa using hlog

/-- Each context has counted `OP_MAX_NUM_BLOCKS` at most. -/
theorem sum_opsCnt_le {ops : List (Nat × OpContext)} (h : ∀ p ∈ ops, p.2.opsCnt ≤ opMaxNumBlocks) :
    (ops.map (·.2.opsCnt)).sum ≤ opMaxNumBlocks * ops.length := by
  induction ops with
  | nil => exact Nat.zero_le _
  | cons p ops ih =>
    have hp := h p List.mem_cons_self
    have hrest := ih fun q hq => h q (List.mem_cons_of_mem p hq)
    rw [List.map_cons, List.sum_cons, List.length_cons, Nat.mul_succ]
    omega

/-- The contexts have made no more entries than they have reserved. -/
theorem Counters.Accounting.numBlocks_le {limit : Nat} {k : Counters} (h : k.Accounting limit) :
    k.numBlocks ≤ limit := by
  have hsum := sum_opsCnt_le h.limited
  have htotal := h.total
  have hroom := h.reserved
  rw [h.outstanding] at hroom
  omega

/-- A log that is not larger than the header is never left. -/
theorem Counters.Accounting.inHeader {sb : SuperBlock} {s : Sys}
    (h : s.counters.Accounting sb.numLogBlocks.toNat) (hsize : sb.numLogBlocks.toNat ≤ logMaxSize) :
    s.InHeader :=
  h.numBlocks_le.trans hsize

end KernelAarch64.Fs
