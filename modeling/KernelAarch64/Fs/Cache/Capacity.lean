import KernelAarch64.Fs.Cache.Accounting

/-!
# How far the log fills

`cache_begin_op` compares the reservations with `num_log_blocks`, but one of these blocks holds the
header, and the header itself has room for `LOG_MAX_SIZE` entries only. So the log fits its area in
every run exactly when `num_log_blocks` lets a single operation in, with a block to spare
(`log_fits_iff`).

For the sizes that go wrong the run is built here: one operation stays open while others fill the
log and end, which moves their entries to `end_pending`, and then the first one syncs as much as
it may.

For the other direction of `log_fits_iff`, `Counters.Single` says that with less than two
reservations in the log no operation ever leaves entries pending, so the header holds what one
context synced, which is at most `OP_MAX_NUM_BLOCKS`. The run that fills the log is composed from
`Ready.begin`, `Ready.syncs`, `Ready.leave` and `Ready.pend` by `Leads.trans`; each of these lemmas
adds one call and says what it does to the counters, and no run is ever evaluated.

The last part looks at the end of `header.block_no`. `reachable_accounting_iff` says that a log of
at most `LOG_MAX_SIZE` blocks is what keeps every push inside of it; `accounting_overwritten` is
what happens in a larger one, where the entry goes to `outstanding`.
-/

namespace KernelAarch64.Fs

open KernelAarch64.Lib

/-- The log fits its area and the header. `copies` are the log copies that `commit` would write
now; `entries` bounds the index of every access to `header.block_no`. -/
structure Sys.LogFits (sb : SuperBlock) (s : Sys) : Prop where
  slots : s.cache.header.numBlocks ≤ sb.numLogBlocks.toNat - 1
  entries : s.cache.header.numBlocks ≤ logMaxSize
  copies : ∀ t, commitLog sb s.cache = .ok t →
    ∀ w ∈ t.device.writes.drop s.cache.device.writes.length,
      sb.logStart.toNat + 1 ≤ w.1 ∧ w.1 ≤ sb.logStart.toNat + sb.numLogBlocks.toNat - 1

/-- The log copies go where the slots are. -/
theorem Sys.logFits_of_numBlocks {sb : SuperBlock} {s : Sys} (hrep : s.cache.Rep)
    (hslots : s.cache.header.numBlocks ≤ sb.numLogBlocks.toNat - 1)
    (hentries : s.cache.header.numBlocks ≤ logMaxSize) : s.LogFits sb := by
  refine ⟨hslots, hentries, ?_⟩
  intro t ht w hw
  rw [commitLog_eq sb hrep] at ht
  cases ht
  simp only [commitLogState, Device.writes_append, List.drop_left] at hw
  obtain ⟨i, hi, hslot⟩ := RedoLog.fst_copies (List.mem_map_of_mem hw)
  rw [LogHeader.length_entries] at hi
  rw [hslot, redoLog_slot]
  omega

/-! ## Logs for one operation at a time

A second operation would need another `OP_MAX_NUM_BLOCKS` blocks, and `cache_begin_op` does not let
it in. So each commit is of one operation. -/

/-- With fewer than `2 * OP_MAX_NUM_BLOCKS` log blocks no two operations overlap, so nothing is
ever left pending. -/
structure Counters.Single (k : Counters) : Prop where
  outstanding : k.outstanding ≤ 1
  pending : k.endPending = 0

/-- One action at a time: nobody begins while an operation is outstanding. -/
theorem Counters.Step.single {limit : Nat} {k k' : Counters} (h : Counters.Step limit k k')
    (hlimit : limit < 2 * opMaxNumBlocks) (hacc : k.Accounting limit) (hk : k.Single) :
    k'.Single := by
  cases h with
  | same => exact hk
  | count => exact ⟨hk.outstanding, hk.pending⟩
  | begin hc hroom =>
    refine ⟨?_, hk.pending⟩
    show k.outstanding + 1 ≤ 1
    unfold opMaxNumBlocks at hlimit hroom
    omega
  | commit hmem hlast => exact ⟨by simp [hlast], rfl⟩
  | leave hmem hmore =>
    -- The context that ends is outstanding, and there is no other.
    have hlen : 0 < k.ops.length := List.length_pos_of_mem hmem
    have := hk.outstanding
    have := hacc.outstanding
    omega

/-- So it is along a run. -/
theorem Runs.counters_single {sb : SuperBlock} {s t : Sys} {post : Sys → Prop}
    (hlimit : sb.numLogBlocks.toNat < 2 * opMaxNumBlocks) (h : Runs sb Sys.Legal post s t)
    (hacc : s.counters.Accounting sb.numLogBlocks.toNat) (hs : s.counters.Single) :
    t.counters.Accounting sb.numLogBlocks.toNat ∧ t.counters.Single := by
  refine h.invariant (I := fun u =>
    u.counters.Accounting sb.numLogBlocks.toNat ∧ u.counters.Single) ⟨hacc, hs⟩ ?_
  rintro u v a ⟨hu, hsingle⟩ hlegal hstep -
  have hk := Sys.step_counters hlegal hstep
  exact ⟨hk.accounting hu, hk.single hlimit hu hsingle⟩

/-! ## Filling the log

The lemmas of this section are steps of a run that is built forwards: from a state that is `Ready`
with counters `k`, some calls lead to one that is `Ready` with the counters after them. The contexts
that have ended are only remembered so that no number is used twice. -/

/-- A state in which no block is held and the log lists the blocks from `base` on. The runs that
fill the log go from one such state to the next. -/
structure Ready (base : Nat) (s : Sys) (k : Counters) : Prop where
  rep : s.cache.Rep
  unlocked : ∀ blk ∈ s.cache.blocks, blk.locked = false
  entries : s.cache.header.entries = (List.range k.numBlocks).map (base + ·)
  counters : s.counters = k

/-- A run of the callers from `s` to a state with counters `k`. -/
def Leads (sb : SuperBlock) (base : Nat) (s : Sys) (k : Counters) : Prop :=
  ∃ t, Runs sb Sys.Legal (fun _ => True) s t ∧ Ready base t k

theorem Leads.trans {sb : SuperBlock} {base : Nat} {s : Sys} {k k' : Counters}
    (h : Leads sb base s k) (h' : ∀ t, Ready base t k → Leads sb base t k') :
    Leads sb base s k' := by
  obtain ⟨t, hst, ht⟩ := h
  obtain ⟨u, htu, hu⟩ := h' t ht
  exact ⟨u, hst.trans htu, hu⟩

/-- A block can be acquired when none is held, whether it is in the cache or has to be read, and it
is the only one that is held then. -/
theorem unsafeCacheAcquire_of_unlocked {s : Cache} (hs : ∀ blk ∈ s.blocks, blk.locked = false)
    (b : Nat) : ∃ blk t, unsafeCacheAcquire b s = .ok (blk, t) ∧
      ∀ x ∈ t.blocks, x.locked = true → x.blockNo = b := by
  have hfree : CopyAt (fun blk => blk.locked = false) b s :=
    fun blk hblk => hs blk (getCache_eq_some hblk).1
  obtain ⟨t, hacq⟩ := hfree.exists_acquire
  refine ⟨_, t, hacq, ?_⟩
  intro x hx hlocked
  obtain ⟨y, hy, rfl⟩ := mem_acquire hacq hx
  have hyfree : y.locked = false := by
    rcases hy with hy | rfl
    · exact hs y hy
    · rfl
  split at hlocked
  · next hno => simp [hno, Block.lock]
  · simp [hyfree] at hlocked

namespace Ready

variable (sb : SuperBlock) {base : Nat} {s : Sys} {k : Counters} {c : Nat} {ctx : OpContext}

/-- An operation begins, if its reservation fits. -/
theorem begin (h : Ready base s k) (hc : c ∉ k.begun)
    (hroom : (k.outstanding + 1) * opMaxNumBlocks + k.endPending ≤ sb.numLogBlocks.toNat) :
    Leads sb base s
      { k with
        ops := (c, ⟨0⟩) :: k.ops, begun := c :: k.begun, outstanding := k.outstanding + 1 } := by
  obtain rfl := h.counters
  have hstep : s.step sb (.beginOp c) = .ok _ := step_beginOp.mpr ⟨hroom, rfl⟩
  exact ⟨_, .single ⟨.beginOp c, hc, hstep, trivial⟩, Sys.rep_step h.rep hstep, h.unlocked,
    h.entries, rfl⟩

/-- An operation ends while others are outstanding: its entries are pending from now on. -/
theorem leave (h : Ready base s k) (hc : findOp c k.ops = some ctx) (hmore : k.outstanding ≠ 1) :
    Leads sb base s
      { k with
        ops := eraseOp c k.ops, outstanding := k.outstanding - 1,
        endPending := k.endPending + ctx.opsCnt } := by
  obtain rfl := h.counters
  have hstep : s.step sb (.endOp c) = .ok _ := step_endOp.mpr
    ⟨ctx, _, hc, cacheEndOp_eq_ok.mpr (.inr ⟨hmore, rfl⟩), rfl⟩
  have hopen : s.IsOpen c := List.mem_map_of_mem (findOp_mem hc)
  exact ⟨_, .single ⟨.endOp c, hopen, hstep, trivial⟩, Sys.rep_step h.rep hstep, h.unlocked,
    h.entries, rfl⟩

/-- The next block is acquired, synced and released. It is not in the log yet, so the header and the
context count one more. -/
theorem sync (h : Ready base s k) (hc : findOp c k.ops = some ctx)
    (hctx : ctx.opsCnt < opMaxNumBlocks) (hb : base + k.numBlocks < 2 ^ 64) :
    Leads sb base s
      { k with ops := setOp c ⟨ctx.opsCnt + 1⟩ k.ops, numBlocks := k.numBlocks + 1 } := by
  obtain rfl := h.counters
  have hopen : s.IsOpen c := List.mem_map_of_mem (findOp_mem hc)
  generalize hno : base + s.counters.numBlocks = b at hb
  obtain ⟨blk, u, hacq, hlocked⟩ := unsafeCacheAcquire_of_unlocked h.unlocked b
  obtain ⟨hget, hacqd⟩ := h.rep.getCache_acquire hacq
  have hheader : u.header = s.cache.header := unsafeCacheAcquire_header hacq
  have hnew : b ∉ u.header.entries := by
    rw [hheader, h.entries, ← hno]
    simp
  have hget₂ : getCache b (setCache b Block.pin u.blocks) = some blk.pin := by
    rw [getCache_setCache_self (f := Block.pin) (fun _ => rfl), hget]
    rfl
  have hsync := unsafeCacheSync_ctx (c := ctx) |>.mpr
    ⟨⟨blk, hget⟩, .inr ⟨hnew, hctx, rfl, rfl⟩⟩
  -- The three calls, one after the other.
  let s₁ : Sys := { s with cache := u }
  let s₂ : Sys :=
    { s with
      cache := { u with header := u.header.push b }.setBlock b Block.pin
      ops := setOp c ⟨ctx.opsCnt + 1⟩ s.ops
      ghost := s.ghost.sync (some c) b (u.dataOf b) }
  have h₁ : s.step sb (.acquire b) = .ok s₁ := step_acquire.mpr ⟨blk, u, hacq, rfl⟩
  have h₂ : s₁.step sb (.sync (some c) b) = .ok s₂ :=
    step_sync.mpr ⟨ctx, _, _, hc, hsync, rfl⟩
  have h₃ : s₂.step sb (.release b) =
      .ok { s₂ with cache := s₂.cache.setBlock b Block.unlock } :=
    step_release.mpr ⟨⟨_, hget₂⟩, rfl⟩
  obtain ⟨hn, ho, he⟩ := unsafeCacheAcquire_count hacq
  refine ⟨_, .tail (.tail (.single ⟨.acquire b, hb, h₁, trivial⟩)
    ⟨.sync (some c) b, ⟨hopen, held_of_getCache hget hacqd⟩, h₂, trivial⟩)
    ⟨.release b, held_of_getCache (s := s₂) hget₂ hacqd, h₃, trivial⟩, ?_, ?_, ?_, ?_⟩
  · exact Sys.rep_step (Sys.rep_step (Sys.rep_step h.rep h₁) h₂) h₃
  · intro x hx
    obtain ⟨y, hy, rfl⟩ := mem_setCache.mp hx
    split
    · rfl
    · next hne =>
      obtain ⟨z, hz, rfl⟩ := mem_setCache.mp hy
      by_cases hzb : z.blockNo = b
      · exact absurd (by rw [if_pos hzb]; exact hzb) hne
      · rw [if_neg hzb]
        exact Bool.eq_false_iff.mpr fun hl => hzb (hlocked z hz hl)
  · show (u.header.push b).entries = _
    rw [LogHeader.entries_push, hheader, h.entries, List.range_succ, List.map_append, ← hno]
    rfl
  · show Counters.mk _ _ u.outstanding u.endPending (u.header.numBlocks + 1) = _
    rw [hn, ho, he]
    rfl

/-- As many blocks as the context may sync, each of them new to the header. The induction is on
their number. -/
theorem syncs (h : Ready base s k) (hc : findOp c k.ops = some ⟨0⟩)
    (hzero : setOp c ⟨0⟩ k.ops = k.ops) {n : Nat} (hn : n ≤ opMaxNumBlocks)
    (hb : base + k.numBlocks + n < 2 ^ 64) :
    Leads sb base s { k with ops := setOp c ⟨n⟩ k.ops, numBlocks := k.numBlocks + n } := by
  induction n with
  | zero =>
    rw [hzero]
    exact ⟨s, .refl, h⟩
  | succ n ih =>
    refine (ih (by omega) (by omega)).trans fun t ht => ?_
    have hnext := ht.sync sb (findOp_setOp hc) (Nat.lt_of_succ_le hn)
      (show base + (k.numBlocks + n) < 2 ^ 64 by omega)
    rwa [setOp_setOp] at hnext

/-- An operation that comes and goes leaves its entries pending. Another one is open meanwhile, so
nothing is committed. -/
theorem pend (h : Ready base s k) (hc : c ∉ k.begun) (hfree : c ∉ k.ops.map Prod.fst)
    (hroom : (k.outstanding + 1) * opMaxNumBlocks + k.endPending ≤ sb.numLogBlocks.toNat)
    (hone : k.outstanding = 1) {n : Nat} (hn : n ≤ opMaxNumBlocks)
    (hb : base + k.numBlocks + n < 2 ^ 64) :
    Leads sb base s
      { k with
        begun := c :: k.begun, endPending := k.endPending + n,
        numBlocks := k.numBlocks + n } := by
  have hne : ∀ p ∈ k.ops, p.1 ≠ c := by
    rintro p hp rfl
    exact hfree (List.mem_map_of_mem hp)
  have hset : ∀ x, setOp c x k.ops = k.ops := by
    intro x
    conv_rhs => rw [← List.map_id k.ops]
    exact List.map_congr_left fun p hp => if_neg (hne p hp)
  have herase : eraseOp c k.ops = k.ops :=
    List.filter_eq_self.mpr fun p hp => by simpa using hne p hp
  have hcons : ∀ x y, setOp c y ((c, x) :: k.ops) = (c, y) :: k.ops := by
    intro x y
    simpa [setOp] using hset y
  have hfind : ∀ x, findOp c ((c, x) :: k.ops) = some x := by
    intro x
    simp [findOp]
  refine (h.begin sb hc hroom).trans fun t ht => ?_
  refine (ht.syncs sb (hfind ⟨0⟩) (hcons _ _) hn hb).trans fun u hu => ?_
  rw [hcons] at hu
  have hend := hu.leave sb (hfind ⟨n⟩) (by simp [hone])
  have hcons' : eraseOp c ((c, (⟨n⟩ : OpContext)) :: k.ops) = k.ops := by
    simpa [eraseOp] using herase
  rwa [hcons', Nat.add_sub_cancel] at hend

end Ready

/-- The counters while one operation is open that has synced nothing, and `e` entries are left
behind by others. -/
def pendingCounters (begun : List Nat) (e : Nat) : Counters where
  ops := [(0, ⟨0⟩)]
  begun := begun
  outstanding := 1
  endPending := e
  numBlocks := e

/-- Any number of entries can be left pending, up to the reservation of the open operation. By
strong induction: the operations come and go, and each leaves as many entries as it may or as are
missing. -/
theorem leads_pending {sb : SuperBlock} {base : Nat} {s : Sys}
    (hs : Ready base s ⟨[], [], 0, 0, 0⟩) (hlog : 2 * opMaxNumBlocks ≤ sb.numLogBlocks.toNat)
    (hbase : base < 2 ^ 33) {e : Nat} (he : e + opMaxNumBlocks ≤ sb.numLogBlocks.toNat) :
    ∃ begun, (∀ c ∈ begun, c ≤ e) ∧ Leads sb base s (pendingCounters begun e) := by
  have hmax := sb.numLogBlocks.toNat_lt
  unfold opMaxNumBlocks at hlog he
  induction e using Nat.strong_induction_on with
  | _ e ih =>
    rcases Nat.eq_zero_or_pos e with rfl | hpos
    · refine ⟨[0], by simp, hs.begin sb (by simp) ?_⟩
      simp only [opMaxNumBlocks]
      omega
    · -- The last operation to come and go made `n` of the entries.
      obtain ⟨n, hn, hnpos, hne⟩ : ∃ n ≤ opMaxNumBlocks, 0 < n ∧
          n ≤ e ∧ (n < 10 → n = e) := by
        by_cases h10 : e < 10
        · exact ⟨e, Nat.le_of_lt h10, hpos, Nat.le_refl _, fun _ => rfl⟩
        · exact ⟨10, Nat.le_refl _, by omega, by omega, by omega⟩
      obtain ⟨begun, hbegun, hleads⟩ := ih (e - n) (by omega) (by omega)
      refine ⟨e :: begun, ?_, hleads.trans fun t ht => ?_⟩
      · intro c hc
        rcases List.mem_cons.mp hc with rfl | hc
        · exact Nat.le_refl _
        · have := hbegun c hc
          omega
      · have hnew : e ∉ begun := fun hc => by
          have := hbegun e hc
          omega
        have hroom : (1 + 1) * opMaxNumBlocks + (e - n) ≤ sb.numLogBlocks.toNat := by
          simp only [opMaxNumBlocks]
          omega
        have hpend := ht.pend sb hnew (by simp [pendingCounters]; omega) hroom rfl hn
          (show base + (e - n) + n < 2 ^ 64 by omega)
        have hsum : e - n + n = e := by omega
        simpa only [pendingCounters, hsum] using hpend

/-- The open operation syncs all it may. With what was left pending this is every number of entries
that the tests let through. -/
theorem leads_full {sb : SuperBlock} {base : Nat} {s : Sys}
    (hs : Ready base s ⟨[], [], 0, 0, 0⟩) (hbase : base < 2 ^ 33) {n : Nat}
    (hn : opMaxNumBlocks ≤ n) (hlog : n ≤ sb.numLogBlocks.toNat)
    (hsize : n = opMaxNumBlocks ∨ 2 * opMaxNumBlocks ≤ sb.numLogBlocks.toNat) :
    ∃ t, Runs sb Sys.Legal (fun _ => True) s t ∧ t.cache.header.numBlocks = n := by
  have hmax := sb.numLogBlocks.toNat_lt
  -- All but the last entries are pending before the open operation syncs.
  obtain ⟨begun, hleads⟩ : ∃ begun,
      Leads sb base s (pendingCounters begun (n - opMaxNumBlocks)) := by
    rcases hsize with rfl | hlarge
    · refine ⟨[0], ?_⟩
      rw [Nat.sub_self]
      exact hs.begin sb (by simp) (by simpa using hlog)
    · obtain ⟨begun, -, hleads⟩ := leads_pending hs hlarge hbase
        (e := n - opMaxNumBlocks) (by omega)
      exact ⟨begun, hleads⟩
  obtain ⟨t, hruns, ht⟩ := hleads.trans fun t ht =>
    ht.syncs sb (c := 0) (n := opMaxNumBlocks) rfl rfl (Nat.le_refl _)
      (show base + (n - opMaxNumBlocks) + opMaxNumBlocks < 2 ^ 64 by omega)
  refine ⟨t, hruns, ?_⟩
  have hnum := congrArg Counters.numBlocks ht.counters
  have hsum : n - opMaxNumBlocks + opMaxNumBlocks = n := Nat.sub_add_cancel hn
  exact hnum.trans hsum

/-- The system after `init_bcache`, described by its counters. -/
theorem Sys.init_ready (sb : SuperBlock) (d : Disk) (base : Nat) :
    Ready base (Sys.init sb d) ⟨[], [], 0, 0, 0⟩ := by
  obtain ⟨h, dev, heq⟩ := initBcache_eq sb d
  refine ⟨Sys.init_rep sb d, ?_, ?_, ?_⟩ <;> simp only [Sys.init, heq]
  · simp
  · simp
  · rfl

/-- The log stays in its area and in its header, in every run from a disk with an empty log,
exactly when `num_log_blocks` is large enough for one operation and its header and too small for
two operations. -/
theorem log_fits_iff (sb : SuperBlock) (hop : opMaxNumBlocks ≤ sb.numLogBlocks.toNat) :
    (∀ d, (diskHeader (d sb.logStart.toNat)).numBlocks = 0 →
      ∀ s, Runs sb Sys.Legal (fun _ => True) (Sys.init sb d) s → s.LogFits sb) ↔
    opMaxNumBlocks < sb.numLogBlocks.toNat ∧ sb.numLogBlocks.toNat < 2 * opMaxNumBlocks := by
  constructor
  · intro hfits
    by_contra hsize
    -- One entry more than the log has room for, or one more than the header.
    obtain ⟨n, hn, hlog, hlarge, hover⟩ : ∃ n, opMaxNumBlocks ≤ n ∧ n ≤ sb.numLogBlocks.toNat ∧
        (n = opMaxNumBlocks ∨ 2 * opMaxNumBlocks ≤ sb.numLogBlocks.toNat) ∧
        (sb.numLogBlocks.toNat - 1 < n ∨ logMaxSize < n) := by
      simp only [opMaxNumBlocks, logMaxSize, blockSize] at hop hsize ⊢
      exact ⟨min sb.numLogBlocks.toNat 64, by omega, by omega, by omega, by omega⟩
    have hbase : sb.logStart.toNat + sb.numLogBlocks.toNat < 2 ^ 33 := by
      have := sb.logStart.toNat_lt
      have := sb.numLogBlocks.toNat_lt
      omega
    have hempty : (diskHeader BlockData.zero).numBlocks = 0 := by
      rw [diskHeader, numBlocks_load]
      decide +kernel
    -- The blocks behind the log area.
    obtain ⟨s, hruns, hs⟩ := leads_full (Sys.init_ready sb (fun _ => .zero) _) hbase hn hlog hlarge
    obtain ⟨hslots, hentries, -⟩ := hfits _ hempty s hruns
    omega
  · rintro ⟨hlow, hhigh⟩ d - s hruns
    have hinit : (Sys.init sb d).counters.Single := by
      rw [(Sys.init_ready sb d 0).counters]
      exact ⟨Nat.zero_le _, rfl⟩
    obtain ⟨hacc, hsingle⟩ := Runs.counters_single hhigh hruns (Sys.init_accounting sb d _) hinit
    -- All entries belong to the one operation that is open.
    have hnum : s.cache.header.numBlocks ≤ opMaxNumBlocks := by
      have htotal : s.cache.header.numBlocks =
          s.counters.endPending + (s.ops.map (·.2.opsCnt)).sum := hacc.total
      have hlen : s.ops.length ≤ 1 := hacc.outstanding ▸ hsingle.outstanding
      rw [htotal, hsingle.pending, Nat.zero_add]
      rcases hops : s.ops with _ | ⟨p, _ | ⟨q, l⟩⟩
      · exact Nat.zero_le _
      · have hmem : p ∈ s.ops := by simp [hops]
        simpa using hacc.limited p hmem
      · simp [hops] at hlen
    apply Sys.logFits_of_numBlocks (hruns.rep (Sys.init_rep sb d)) (by omega)
    exact Nat.le_trans hnum (by decide)

/-- One operation that syncs `OP_MAX_NUM_BLOCKS` blocks. -/
def fillLog : List Action :=
  .beginOp 0 :: (List.range opMaxNumBlocks).flatMap fun i =>
    [.acquire (200 + i), .sync (some 0) (200 + i), .release (200 + i)]

/-- The smallest log that is large enough. -/
theorem log_fits_eleven : ∃ s,
    (Sys.init (smallSuperBlock 11) fun _ => .zero).exec (smallSuperBlock 11) fillLog = .ok s ∧
    s.LogFits (smallSuperBlock 11) := by
  obtain ⟨s, hexec, hruns⟩ := Runs.of_admits (smallSuperBlock 11) Sys.Legal (fun _ => True)
    (Sys.init (smallSuperBlock 11) fun _ => .zero) fillLog (by decide +kernel)
  have hempty : (diskHeader BlockData.zero).numBlocks = 0 := by
    rw [diskHeader, numBlocks_load]
    decide +kernel
  have hfits := (log_fits_iff (smallSuperBlock 11) (by decide)).mpr (by decide)
  exact ⟨s, hexec, hfits _ hempty s hruns⟩

/-- With `num_log_blocks = OP_MAX_NUM_BLOCKS` a single operation overflows the log area. -/
theorem log_overflows_ten : ∃ s,
    (Sys.init (smallSuperBlock 10) fun _ => .zero).exec (smallSuperBlock 10) fillLog = .ok s ∧
    Runs (smallSuperBlock 10) Sys.Legal (fun _ => True)
      (Sys.init (smallSuperBlock 10) fun _ => .zero) s ∧
    (smallSuperBlock 10).numLogBlocks.toNat - 1 < s.cache.header.numBlocks ∧
    ¬ s.LogFits (smallSuperBlock 10) := by
  obtain ⟨s, hexec, hruns⟩ := Runs.of_admits (smallSuperBlock 10) Sys.Legal (fun _ => True)
    (Sys.init (smallSuperBlock 10) fun _ => .zero) fillLog (by decide +kernel)
  have hnum : (((Sys.init (smallSuperBlock 10) fun _ => .zero).exec (smallSuperBlock 10)
      fillLog).toOption.map fun s => s.cache.header.numBlocks) = some 10 := by
    decide +kernel
  rw [hexec] at hnum
  have hten : s.cache.header.numBlocks = 10 := Option.some.inj hnum
  have hover : (smallSuperBlock 10).numLogBlocks.toNat - 1 < s.cache.header.numBlocks := by
    rw [hten]
    decide
  exact ⟨s, hexec, hruns, hover, fun hfits => Nat.not_lt.mpr hfits.slots hover⟩

/-! ## The end of `header.block_no`

`push` has no bound of its own: the assert of `cache_sync` looks at `ops_cnt`, and `cache_begin_op`
at `num_log_blocks`. What lies behind the array in memory is not part of the record of the cache, so
a state is read as valid only as long as the header ends before it. -/

/-- A run that goes past the end of the header has a first step that does. -/
theorem Runs.exists_leaves {sb : SuperBlock} {ok : Sys → Action → Prop} {post : Sys → Prop} {s t : Sys}
    (h : Runs sb ok post s t) (hs : s.InHeader) (ht : ¬ t.InHeader) :
    ∃ u v a, Runs sb ok Sys.InHeader s u ∧ ok u a ∧ u.step sb a = .ok v ∧ ¬ v.InHeader := by
  suffices hsplit : Runs sb ok Sys.InHeader s t ∨
      ∃ u v a, Runs sb ok Sys.InHeader s u ∧ ok u a ∧ u.step sb a = .ok v ∧ ¬ v.InHeader by
    rcases hsplit with hruns | hleaves
    · exact absurd (hruns.invariant hs fun _ _ _ _ _ _ hpost => hpost) ht
    · exact hleaves
  clear ht
  induction h with
  | refl => exact .inl .refl
  | @tail u v _ hlast ih =>
    obtain ⟨a, hok, hstep, -⟩ := hlast
    rcases ih with hruns | hleaves
    · by_cases hin : v.InHeader
      · exact .inl (hruns.tail ⟨a, hok, hstep, hin⟩)
      · exact .inr ⟨_, _, a, hruns, hok, hstep, hin⟩
    · exact .inr hleaves

/-- The accounting of the log holds, and no call that returns stores an entry past the end of
`header.block_no`, in every run from `init_bcache` on, exactly when the log is not larger than the
header. -/
theorem reachable_accounting_iff (sb : SuperBlock) (d : Disk) :
    (∀ s, Runs sb Sys.Legal Sys.InHeader (Sys.init sb d) s →
      s.Accounted sb ∧ ∀ a t, s.Legal a → s.step sb a = .ok t → t.InHeader) ↔
    sb.numLogBlocks.toNat ≤ logMaxSize := by
  constructor
  · intro hall
    by_contra hsize
    have hbig : logMaxSize + 1 ≤ sb.numLogBlocks.toNat := Nat.succ_le_of_lt (not_le.mp hsize)
    obtain ⟨t, hruns, ht⟩ := leads_full (n := logMaxSize + 1) (Sys.init_ready sb d 0) (by decide)
      (by decide) hbig (.inr (Nat.le_trans (by decide) hbig))
    have hinit : (Sys.init sb d).InHeader := by
      have hnum := congrArg Counters.numBlocks (Sys.init_ready sb d 0).counters
      exact (Nat.le_of_eq hnum).trans (Nat.zero_le _)
    have hout : ¬ t.InHeader := by
      unfold Sys.InHeader
      omega
    obtain ⟨u, v, a, hu, hlegal, hstep, hv⟩ := hruns.exists_leaves hinit hout
    exact hv ((hall u hu).2 a v hlegal hstep)
  · intro hsize s hruns
    have hacc := hruns.accounting (fun _ _ ha => ha) (Sys.init_accounting sb d _)
    refine ⟨hacc.accounted, ?_⟩
    intro a t hlegal hstep
    exact ((Sys.step_counters hlegal hstep).accounting hacc).inHeader hsize

/-- The variables behind `header`, in the order of their declaration: `arena` has ten words, and
`outstanding`, `end_pending` and `cached_num` have one each. An entry of index `LOG_MAX_SIZE` or
more is stored to one of these words. -/
def Cache.overwritten (s : Cache) : Cache :=
  { s with
    outstanding := if logMaxSize + 10 < s.header.numBlocks then s.header.blockNo (logMaxSize + 10)
      else s.outstanding
    endPending := if logMaxSize + 11 < s.header.numBlocks then s.header.blockNo (logMaxSize + 11)
      else s.endPending
    cachedNum := if logMaxSize + 12 < s.header.numBlocks then s.header.blockNo (logMaxSize + 12)
      else s.cachedNum }

/-- Eight operations with 74 blocks, all of them acquired first, and all but one synced. -/
def syncPastHeader : List Action :=
  (List.range 8).map .beginOp ++ (List.range 74).map (fun i => .acquire (200 + i)) ++
    (List.range 73).map fun i => .sync (some (i / 10)) (200 + i)

/-- With 80 log blocks, the 74th entry is stored to `outstanding`, which is then a block number. -/
theorem accounting_overwritten : ∃ s t,
    Runs (smallSuperBlock 80) Sys.Legal (fun _ => True)
      (Sys.init (smallSuperBlock 80) fun _ => .zero) s ∧
    s.cache.header.numBlocks ≤ logMaxSize + 10 ∧ s.Legal (.sync (some 7) 273) ∧
    s.step (smallSuperBlock 80) (.sync (some 7) 273) = .ok t ∧
    t.cache.overwritten.outstanding = 273 ∧
    ¬ Sys.Accounted (smallSuperBlock 80) { t with cache := t.cache.overwritten } := by
  obtain ⟨s, hexec, hruns⟩ := Runs.of_admits (smallSuperBlock 80) Sys.Legal (fun _ => True)
    (Sys.init (smallSuperBlock 80) fun _ => .zero) syncPastHeader (by decide +kernel)
  have hfacts : (((Sys.init (smallSuperBlock 80) fun _ => .zero).exec (smallSuperBlock 80)
      syncPastHeader).toOption.map fun s =>
        decide (s.cache.header.numBlocks ≤ logMaxSize + 10 ∧ s.Legal (.sync (some 7) 273) ∧
          ((s.step (smallSuperBlock 80) (.sync (some 7) 273)).toOption.map fun t =>
            t.cache.overwritten.outstanding) = some 273)) = some true := by
    decide +kernel
  rw [hexec] at hfacts
  obtain ⟨hnum, hlegal, hout⟩ := of_decide_eq_true (Option.some.inj hfacts)
  cases hstep : s.step (smallSuperBlock 80) (.sync (some 7) 273) with
  | error e =>
    rw [hstep] at hout
    cases hout
  | ok t =>
    rw [hstep] at hout
    have hout : t.cache.overwritten.outstanding = 273 := Option.some.inj hout
    refine ⟨s, t, hruns, hnum, hlegal, hstep, hout, ?_⟩
    intro hacc
    have hroom : opMaxNumBlocks * t.cache.overwritten.outstanding + _ ≤ _ := hacc.reserved
    rw [hout] at hroom
    have hlimit : (smallSuperBlock 80).numLogBlocks.toNat = 80 := rfl
    unfold opMaxNumBlocks at hroom
    omega

end KernelAarch64.Fs
