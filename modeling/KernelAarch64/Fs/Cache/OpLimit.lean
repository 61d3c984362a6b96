import KernelAarch64.Fs.Cache.Accounting
import Mathlib.Data.Finset.Card
import Mathlib.Data.Finset.Dedup

/-!
# The limit of an operation

`cache.h` limits the number of blocks that one operation syncs. `ops_cnt` counts the log entries
that the operation has made, and a block that another operation of the group has logged before makes
none. So an operation gets the blocks of others for free, and `sync` panics later than it should.

`firstSync` says which context was the first to sync a block since the last commit. The invariant is
that the header lists the blocks that have one, and that `ops_cnt` counts those of its context.

`reachable_quota` carries this invariant, with the accounting of the log, along every run.
`QuotaInv.sync_panics_iff` then turns the test of `sync` into a statement about the history: it
panics when more than `OP_MAX_NUM_BLOCKS` blocks are charged to the context, which are the blocks it
synced without those that others logged first. `sync_limit_iff` compares this set with the blocks
synced under the context, which are those the limit speaks of.
-/

namespace KernelAarch64.Fs

open KernelAarch64.Lib

/-- The context that was the first to sync block `x`. -/
def firstSync (recs : List SyncRec) (x : Nat) : Option Nat :=
  recs.findSome? fun r => if r.block = x then r.ctx else none

/-- A later sync is the first one only of a block that had none. -/
theorem firstSync_concat (recs : List SyncRec) (r : SyncRec) (x : Nat) :
    firstSync (recs ++ [r]) x = (firstSync recs x).or (if r.block = x then r.ctx else none) := by
  simp only [firstSync, List.findSome?_append, List.findSome?_singleton]

/-- A first sync is in the history. -/
theorem firstSync_mem {recs : List SyncRec} {x c : Nat} (h : firstSync recs x = some c) :
    ∃ r ∈ recs, r.block = x ∧ r.ctx = some c := by
  obtain ⟨r, hr, hx⟩ := List.exists_of_findSome?_eq_some h
  split at hx
  · next hblock => exact ⟨r, hr, hblock, hx⟩
  · cases hx

/-- A block that was synced under a context has a first sync. -/
theorem firstSync_ne_none {recs : List SyncRec} {r : SyncRec} (hr : r ∈ recs)
    (hctx : r.ctx ≠ none) :
    firstSync recs r.block ≠ none := by
  intro hnone
  have hall := List.findSome?_eq_none_iff.mp hnone r hr
  rw [if_pos rfl] at hall
  exact hctx hall

namespace Sys

/-- The syncs since the last commit. -/
def openGroup (s : Sys) : List SyncRec := s.ghost.hist.drop s.ghost.base

/-- The blocks that were synced under context `c`. A context is begun once, so these are the blocks
since its `begin_op`. -/
def syncedBy (s : Sys) (c : Nat) : Finset Nat :=
  ((s.ghost.hist.filter (·.ctx = some c)).map SyncRec.block).toFinset

/-- The blocks of the history under context `c`. -/
theorem mem_syncedBy {s : Sys} {c x : Nat} :
    x ∈ s.syncedBy c ↔ ∃ r ∈ s.ghost.hist, r.ctx = some c ∧ r.block = x := by
  simp [syncedBy, and_assoc]

/-- What `ops_cnt` and the header have to do with the history: `ops_cnt` counts the blocks that the
context was the first to sync since the last commit. -/
structure Quota (s : Sys) : Prop where
  base_le : s.ghost.base ≤ s.ghost.hist.length
  begun : ∀ r ∈ s.ghost.hist, ∀ c, r.ctx = some c → c ∈ s.begun
  past : ∀ r ∈ s.ghost.hist.take s.ghost.base, ∀ c, r.ctx = some c → ¬ s.IsOpen c
  entries : ∀ x, x ∈ s.cache.header.entries ↔ firstSync s.openGroup x ≠ none
  count : ∀ p ∈ s.ops, p.2.opsCnt =
    s.cache.header.entries.countP fun x => firstSync s.openGroup x = some p.1

variable {sb : SuperBlock} {s t : Sys} {b c : Nat}

/-- Only the contexts, the header and the syncs matter, so that a step which leaves them alone keeps
the quota. -/
theorem Quota.congr (h : s.Quota) (hops : t.ops = s.ops) (hbegun : t.begun = s.begun)
    (hheader : t.cache.header = s.cache.header) (hhist : t.ghost.hist = s.ghost.hist)
    (hbase : t.ghost.base = s.ghost.base) : t.Quota := by
  have hgroup : t.openGroup = s.openGroup := by rw [openGroup, openGroup, hhist, hbase]
  constructor
  · rw [hhist, hbase]
    exact h.base_le
  · rw [hhist, hbegun]
    exact h.begun
  · rw [hhist, hbase]
    unfold IsOpen
    rw [hops]
    exact h.past
  · rw [hheader, hgroup]
    exact h.entries
  · rw [hops, hheader, hgroup]
    exact h.count

/-- A sync of block `b`. The header lists the block afterwards if the sync was made under a context;
without one the block went to the device, and the log is as it was. -/
theorem Quota.concat {r : SyncRec} (h : s.Quota) (hbegun : t.begun = s.begun)
    (hopen : t.ops.map Prod.fst = s.ops.map Prod.fst) (hhist : t.ghost.hist = s.ghost.hist ++ [r])
    (hbase : t.ghost.base = s.ghost.base) (hr : ∀ c, r.ctx = some c → c ∈ s.begun)
    (hentries : ∀ x, x ∈ t.cache.header.entries ↔
      x ∈ s.cache.header.entries ∨ r.block = x ∧ r.ctx ≠ none)
    (hcount : ∀ p ∈ t.ops, p.2.opsCnt =
      t.cache.header.entries.countP fun x => firstSync (s.openGroup ++ [r]) x = some p.1) :
    t.Quota := by
  have hgroup : t.openGroup = s.openGroup ++ [r] := by
    rw [openGroup, hhist, hbase, List.drop_append_of_le_length h.base_le]
    rfl
  constructor
  · rw [hhist, hbase, List.length_append]
    exact Nat.le_add_right_of_le h.base_le
  · rw [hhist, hbegun]
    intro q hq
    rcases List.mem_append.mp hq with hq | hq
    · exact h.begun q hq
    · rw [List.mem_singleton.mp hq]
      exact hr
  · rw [hhist, hbase, List.take_append_of_le_length h.base_le]
    unfold IsOpen
    rw [hopen]
    exact h.past
  · intro x
    rw [hentries, h.entries, hgroup, firstSync_concat]
    by_cases hx : r.block = x
    · cases firstSync s.openGroup x <;> simp [hx]
    · simp [hx]
  · rw [hgroup]
    exact hcount

/-- A block that has a first sync keeps it. -/
theorem firstSync_concat_of_mem (h : s.Quota) {x : Nat} (hx : x ∈ s.cache.header.entries)
    (r : SyncRec) : firstSync (s.openGroup ++ [r]) x = firstSync s.openGroup x := by
  rw [firstSync_concat]
  exact Option.or_of_isSome (Option.ne_none_iff_isSome.mp ((h.entries x).mp hx))

/-- A sync does not change who was first at the blocks logged before it. -/
theorem countP_concat (h : s.Quota) (r : SyncRec) (c : Nat) :
    (s.cache.header.entries.countP fun x => firstSync (s.openGroup ++ [r]) x = some c) =
      s.cache.header.entries.countP fun x => firstSync s.openGroup x = some c := by
  refine List.countP_congr fun x hx => ?_
  rw [firstSync_concat_of_mem h hx]

/-- A sync without a context is recorded, and charged to nobody. -/
theorem Quota.sync_null (h : s.Quota) (hstep : s.step sb (.sync none b) = .ok t) : t.Quota := by
  obtain ⟨-, rfl⟩ := step_sync_null.mp hstep
  refine h.concat (r := ⟨none, b, s.cache.dataOf b⟩) rfl rfl rfl rfl (fun c hc => nomatch hc)
    (fun x => by simp) fun p hp => ?_
  show _ = s.cache.header.entries.countP _
  rw [countP_concat h, h.count p hp]

/-- A sync under a context: if the block is logged already nothing is counted, else both the header
and `ops_cnt` go up by one, and the first sync of the block is this one. -/
theorem Quota.sync (h : s.Quota) (hlegal : s.IsOpen c)
    (hacc : s.counters.Accounting sb.numLogBlocks.toNat)
    (hstep : s.step sb (.sync (some c) b) = .ok t) : t.Quota := by
  obtain ⟨ctx, ctx', cache, hc, hsync, rfl⟩ := step_sync.mp hstep
  have hctx : ctx.opsCnt =
      s.cache.header.entries.countP fun x => firstSync s.openGroup x = some c :=
    h.count _ (findOp_mem hc)
  have hbegun : ∀ c', some c = some c' → c' ∈ s.begun := by
    intro c' hc'
    cases hc'
    exact hacc.begun c hlegal
  obtain ⟨-, ⟨hb, -, hr, rfl⟩ | ⟨hb, -, hr, rfl⟩⟩ := unsafeCacheSync_ctx.mp hsync
  · -- the block is logged already
    cases hr
    refine h.concat (r := ⟨some c, b, s.cache.dataOf b⟩) rfl map_fst_setOp rfl rfl hbegun ?_ ?_
    · intro x
      show x ∈ s.cache.header.entries ↔ _
      constructor
      · exact .inl
      · rintro (hx | ⟨rfl, -⟩)
        · exact hx
        · exact hb
    · intro p hp
      show _ = s.cache.header.entries.countP _
      rw [countP_concat h]
      rcases mem_setOp hp with rfl | ⟨hp, -⟩
      · exact hctx
      · exact h.count p hp
  · -- a new entry, which is the context's
    cases hr
    have hnew : firstSync (s.openGroup ++ [⟨some c, b, s.cache.dataOf b⟩]) b = some c := by
      -- A block that is not in the log has not been synced since the last commit.
      have hnone : firstSync s.openGroup b = none := by
        by_contra hne
        exact hb ((h.entries b).mpr hne)
      rw [firstSync_concat, hnone, if_pos rfl]
      rfl
    refine h.concat (r := ⟨some c, b, s.cache.dataOf b⟩) rfl map_fst_setOp rfl rfl hbegun ?_ ?_
    · intro x
      show x ∈ (s.cache.header.push b).entries ↔ _
      rw [LogHeader.entries_push]
      simp [eq_comm]
    · intro p hp
      show _ = (s.cache.header.push b).entries.countP _
      rw [LogHeader.entries_push, List.countP_append, countP_concat h, List.countP_singleton, hnew]
      rcases mem_setOp hp with rfl | ⟨hp, hne⟩
      · simp [hctx]
      · have hother : some c ≠ some p.1 := fun heq => hne (Option.some.inj heq).symm
        simp [hother, h.count p hp]

/-- A context that begins has synced nothing, and may sync as many blocks as the limit says. -/
theorem Quota.beginOp (h : s.Quota) (hc : c ∉ s.begun) (hstep : s.step sb (.beginOp c) = .ok t) :
    t.Quota := by
  obtain ⟨-, rfl⟩ := step_beginOp.mp hstep
  refine ⟨h.base_le, ?_, ?_, h.entries, ?_⟩
  · intro r hr c' hc'
    exact List.mem_cons_of_mem _ (h.begun r hr c' hc')
  · intro r hr c' hc' hopen
    rcases List.mem_cons.mp hopen with rfl | hopen
    · exact hc (h.begun r (List.mem_of_mem_take hr) _ hc')
    · exact h.past r hr c' hc' hopen
  · intro p hp
    rcases List.mem_cons.mp hp with rfl | hp
    · -- nothing was synced under a new context
      refine (List.countP_eq_zero.mpr fun x _ hx => ?_).symm
      obtain ⟨r, hr, -, hctx⟩ := firstSync_mem (of_decide_eq_true hx)
      exact hc (h.begun r (List.mem_of_mem_drop hr) c hctx)
    · exact h.count p hp

/-- The history goes on past a context that ends. A commit empties the header and starts a new
group, and by then no context is open that synced before. -/
theorem Quota.endOp (h : s.Quota) (hacc : s.counters.Accounting sb.numLogBlocks.toNat)
    (hstep : s.step sb (.endOp c) = .ok t) : t.Quota := by
  obtain ⟨ctx, cache, hc, hend, rfl⟩ := step_endOp.mp hstep
  rcases cacheEndOp_eq_ok.mp hend with ⟨hlast, u, hu, rfl⟩ | ⟨hmore, rfl⟩
  · -- the group is over, and nobody is left
    obtain ⟨hnum, -⟩ := commit_count hu
    have hnil : eraseOp c s.ops = [] := by
      rw [ops_of_last hacc hc hlast]
      simp [eraseOp]
    have hentries : u.header.entries = [] := by
      rw [LogHeader.entries, hnum]
      rfl
    rw [if_pos hlast]
    refine ⟨Nat.le_refl _, h.begun, ?_, ?_, ?_⟩
    · intro r _ c' _ hopen
      have hopen : c' ∈ (eraseOp c s.ops).map Prod.fst := hopen
      rw [hnil] at hopen
      cases hopen
    · intro x
      have hgroup : s.ghost.hist.drop s.ghost.hist.length = [] := List.drop_length
      show x ∈ u.header.entries ↔ firstSync (s.ghost.hist.drop s.ghost.hist.length) x ≠ none
      rw [hentries, hgroup]
      simp [firstSync]
    · intro p hp
      have hp : p ∈ eraseOp c s.ops := hp
      rw [hnil] at hp
      cases hp
  · rw [if_neg hmore]
    refine ⟨h.base_le, h.begun, ?_, h.entries, ?_⟩
    · intro r hr c' hc' hopen
      exact h.past r hr c' hc' (((eraseOp_sublist c s.ops).map _).subset hopen)
    · exact fun p hp => h.count p ((eraseOp_sublist c s.ops).subset hp)

/-- Nothing is logged at first, and no context has begun. -/
theorem init_quota (sb : SuperBlock) (d : Disk) : (Sys.init sb d).Quota := by
  obtain ⟨h, dev, heq⟩ := initBcache_eq sb d
  have hentries : (Sys.init sb d).cache.header.entries = [] := by
    simp only [Sys.init, heq]
    rfl
  refine ⟨Nat.le_refl _, ?_, ?_, fun x => ?_, ?_⟩
  · intro r hr
    cases hr
  · intro r hr
    cases hr
  · rw [hentries]
    simp [firstSync, openGroup, Sys.init]
  · intro p hp
    cases hp

/-- The invariant along a run. The representation and the accounting are needed to know that a
commit finds no operation outstanding. -/
structure QuotaInv (sb : SuperBlock) (s : Sys) : Prop where
  rep : s.cache.Rep
  accounting : s.counters.Accounting sb.numLogBlocks.toNat
  quota : s.Quota

/-- Every simple action keeps the invariant. Those that are not about the log change nothing that it
mentions, so `sync`, `begin_op` and `end_op` are left. -/
theorem QuotaInv.step {a : Action} (h : QuotaInv sb s) (ha : a.Simple) (hlegal : s.Legal a)
    (hstep : s.step sb a = .ok t) : QuotaInv sb t := by
  refine ⟨Sys.rep_step h.rep hstep, (Sys.step_counters hlegal hstep).accounting h.accounting, ?_⟩
  cases a with
  | acquire b =>
    obtain ⟨blk, cache, hacq, rfl⟩ := step_acquire.mp hstep
    exact h.quota.congr rfl rfl (unsafeCacheAcquire_header hacq) rfl rfl
  | change c b d =>
    obtain ⟨-, rfl⟩ := step_change.mp hstep
    exact h.quota.congr rfl rfl rfl rfl rfl
  | sync c b =>
    cases c with
    | none => exact h.quota.sync_null hstep
    | some c => exact h.quota.sync hlegal.1 h.accounting hstep
  | release b =>
    obtain ⟨-, rfl⟩ := step_release.mp hstep
    exact h.quota.congr rfl rfl rfl rfl rfl
  | beginOp c => exact h.quota.beginOp hlegal hstep
  | endOp c => exact h.quota.endOp h.accounting hstep
  | zero b =>
    cases step_zero.mp hstep
    exact h.quota.congr rfl rfl rfl rfl rfl
  | alloc c => exact ha.elim
  | free c b => exact ha.elim

/-- The invariant holds in every state that a run from `init_bcache` reaches. -/
theorem reachable_quota {d : Disk} (h : Runs sb Sys.Legal (fun _ => True) (Sys.init sb d) s) :
    QuotaInv sb s := by
  refine Runs.expand (P := fun _ => True) (Q := Sys.Legal) h
    ⟨Sys.init_rep sb d, Sys.init_accounting sb d _, init_quota sb d⟩ (fun u hu => hu.rep)
    (fun _ _ => trivial) (fun _ _ hlegal => hlegal) ?_ ?_ ?_ ?_
  · exact fun u v a ha hu hlegal hstep _ => hu.step ha hlegal hstep
  · exact fun u a _ _ hlegal => hlegal
  · exact fun u c b v a _ _ _ _ _ hlegal _ => hlegal
  · exact fun u c b v a _ _ _ _ hlegal _ => hlegal

/-! ## When `sync` panics -/

/-- The blocks that count for context `c` when it syncs block `b`: those it has synced and `b`,
without those that another context was the first to sync since the last commit. -/
def charged (s : Sys) (c b : Nat) : Finset Nat :=
  (insert b (s.syncedBy c)).filter fun x =>
    firstSync s.openGroup x = none ∨ firstSync s.openGroup x = some c

/-- What an open context has synced is logged, as nothing was committed since. -/
theorem Quota.syncedBy_subset (h : s.Quota) (hopen : s.IsOpen c) {x : Nat} (hx : x ∈ s.syncedBy c) :
    x ∈ s.cache.header.entries := by
  obtain ⟨r, hr, hctx, rfl⟩ := mem_syncedBy.mp hx
  rw [← List.take_append_drop s.ghost.base s.ghost.hist] at hr
  rcases List.mem_append.mp hr with hr | hr
  · exact absurd hopen (h.past r hr c hctx)
  · exact (h.entries _).mpr (firstSync_ne_none hr (by simp [hctx]))

/-- The log entries that context `c` has made. -/
def made (s : Sys) (c : Nat) : Finset Nat :=
  (s.cache.header.entries.filter fun x => firstSync s.openGroup x = some c).toFinset

/-- `ops_cnt` is the number of log entries that the context has made. -/
theorem QuotaInv.card_made (h : QuotaInv sb s) {ctx : OpContext} (hc : findOp c s.ops = some ctx) :
    (s.made c).card = ctx.opsCnt := by
  rw [made, List.toFinset_card_of_nodup (h.rep.entries_nodup.filter _),
    ← List.countP_eq_length_filter]
  exact (h.quota.count _ (findOp_mem hc)).symm

/-- A context has made the entries whose first sync is its own. -/
theorem Quota.mem_made (h : s.Quota) {x : Nat} :
    x ∈ s.made c ↔ firstSync s.openGroup x = some c := by
  simp only [made, List.mem_toFinset, List.mem_filter, decide_eq_true_eq, and_iff_right_iff_imp]
  intro hx
  exact (h.entries x).mpr (by simp [hx])

/-- The context that was first at a block has synced it. -/
theorem mem_syncedBy_of_firstSync {x : Nat} (hx : firstSync s.openGroup x = some c) :
    x ∈ s.syncedBy c := by
  obtain ⟨r, hr, hblock, hctx⟩ := firstSync_mem hx
  exact mem_syncedBy.mpr ⟨r, List.mem_of_mem_drop hr, hctx, hblock⟩

/-- What counts are the entries that the context has made, and the block that it syncs if this makes
one more. A block that is in the log already, by whomever, is not counted. -/
theorem Quota.charged_eq (h : s.Quota) (hopen : s.IsOpen c) :
    s.charged c b = if b ∈ s.cache.header.entries then s.made c else insert b (s.made c) := by
  have hknown : ∀ x, x ∈ s.cache.header.entries → (firstSync s.openGroup x = none ∨
      firstSync s.openGroup x = some c ↔ x ∈ s.made c) := by
    intro x hx
    rw [h.mem_made]
    exact or_iff_right ((h.entries x).mp hx)
  ext x
  simp only [charged, Finset.mem_filter, Finset.mem_insert]
  by_cases hb : b ∈ s.cache.header.entries
  · rw [if_pos hb]
    constructor
    · rintro ⟨rfl | hx, hfirst⟩
      · exact (hknown _ hb).mp hfirst
      · exact (hknown x (h.syncedBy_subset hopen hx)).mp hfirst
    · intro hx
      have hx := h.mem_made.mp hx
      exact ⟨.inr (mem_syncedBy_of_firstSync hx), .inr hx⟩
  · rw [if_neg hb, Finset.mem_insert]
    constructor
    · rintro ⟨rfl | hx, hfirst⟩
      · exact .inl rfl
      · exact .inr ((hknown x (h.syncedBy_subset hopen hx)).mp hfirst)
    · rintro (rfl | hx)
      · exact ⟨.inl rfl, .inl (not_not.mp fun hne => hb ((h.entries x).mpr hne))⟩
      · have hx := h.mem_made.mp hx
        exact ⟨.inr (mem_syncedBy_of_firstSync hx), .inr hx⟩

/-- The assert of `sync`, read off the source: the count after the push, if there is one, must not
be past the limit. -/
theorem unsafeCacheSync_panics_iff {ctx : OpContext} {s : Cache} {blk : Block}
    (hblk : getCache b s.blocks = some blk) :
    unsafeCacheSync (some ctx) b s = .error (.panic "operation numbers exceed limit") ↔
      opMaxNumBlocks < ctx.opsCnt + if b ∈ s.header.entries then 0 else 1 := by
  simp only [unsafeCacheSync, hblk, LogHeader.find_eq_numBlocks]
  by_cases hb : b ∈ s.header.entries
  · simp [hb]
  · simp [hb]

theorem findOp_of_isOpen (h : s.IsOpen c) : ∃ ctx, findOp c s.ops = some ctx := by
  obtain ⟨p, hp, rfl⟩ := List.mem_map.mp h
  obtain ⟨q, hq⟩ : ∃ q, s.ops.find? (·.1 = p.1) = some q :=
    Option.isSome_iff_exists.mp (List.find?_isSome.mpr ⟨p, hp, by simp⟩)
  exact ⟨q.2, by rw [findOp, hq]; rfl⟩

/-- `sync` panics if more blocks count than an operation may sync, and only then. The block that is
too many is in the header by that time. -/
theorem QuotaInv.sync_panics_iff (h : QuotaInv sb s) (hlegal : s.Legal (.sync (some c) b)) :
    s.step sb (.sync (some c) b) = .error (.panic "operation numbers exceed limit") ↔
      opMaxNumBlocks < (s.charged c b).card := by
  obtain ⟨hopen, hheld⟩ := hlegal
  obtain ⟨ctx, hc⟩ := findOp_of_isOpen hopen
  obtain ⟨blk, hblk, -⟩ := Sys.held_iff.mp hheld
  have hcard : (s.charged c b).card =
      ctx.opsCnt + if b ∈ s.cache.header.entries then 0 else 1 := by
    rw [h.quota.charged_eq hopen]
    by_cases hb : b ∈ s.cache.header.entries
    · rw [if_pos hb, if_pos hb, h.card_made hc, Nat.add_zero]
    · have hnew : b ∉ s.made c := by
        intro hmem
        exact hb ((h.quota.entries b).mpr (by simp [h.quota.mem_made.mp hmem]))
      rw [if_neg hb, if_neg hb, Finset.card_insert_of_notMem hnew, h.card_made hc]
  rw [hcard, ← unsafeCacheSync_panics_iff hblk]
  simp only [Sys.step, hc]
  cases hsync : unsafeCacheSync (some ctx) b s.cache with
  | error e => simp only [error_bind, Except.error.injEq]
  | ok p =>
    constructor
    · intro hstep
      cases hstep
    · intro hstep
      cases hstep

end Sys

/-- `sync` panics exactly when the blocks synced under its context are too many, counting this one,
if and only if they are not too many, or too many even without those that another context was the
first to sync since the last commit. -/
theorem sync_limit_iff (sb : SuperBlock) (d : Disk) {s : Sys}
    (h : Runs sb Sys.Legal Sys.InHeader (Sys.init sb d) s) {c b : Nat}
    (hlegal : s.Legal (.sync (some c) b)) :
    ((s.step sb (.sync (some c) b) = .error (.panic "operation numbers exceed limit") ↔
      opMaxNumBlocks < (insert b (s.syncedBy c)).card) ↔
    (insert b (s.syncedBy c)).card ≤ opMaxNumBlocks ∨ opMaxNumBlocks < (s.charged c b).card) ∧
      (sb.numLogBlocks.toNat ≤ logMaxSize → ∀ t, s.step sb (.sync (some c) b) = .ok t → t.InHeader) := by
  have hany : Runs sb Sys.Legal (fun _ => True) (Sys.init sb d) s :=
    h.mono (fun _ _ hok => hok) fun _ _ => trivial
  have hquota := Sys.reachable_quota hany
  refine ⟨?_, ?_⟩
  swap
  · intro hsize t hstep
    exact ((Sys.step_counters hlegal hstep).accounting hquota.accounting).inHeader hsize
  rw [hquota.sync_panics_iff hlegal]
  have hle : (s.charged c b).card ≤ (insert b (s.syncedBy c)).card :=
    Finset.card_le_card (Finset.filter_subset _ _)
  omega

/-- Context 0 syncs `n` blocks from block 200 on. -/
def syncMany (n : Nat) : List Action :=
  (List.range n).flatMap fun i =>
    [.acquire (200 + i), .sync (some 0) (200 + i), .release (200 + i)]

/-- One operation alone, with as many blocks as it may sync and one more. -/
theorem sync_limit_iff_alone : ∃ s,
    (Sys.init (smallSuperBlock 20) fun _ => .zero).exec (smallSuperBlock 20)
      (.beginOp 0 :: syncMany 10 ++ [.acquire 300]) = .ok s ∧
    opMaxNumBlocks < (insert 300 (s.syncedBy 0)).card ∧
    s.step (smallSuperBlock 20) (.sync (some 0) 300) =
      .error (.panic "operation numbers exceed limit") := by
  obtain ⟨s, hexec, hruns⟩ := Runs.of_admits (smallSuperBlock 20) Sys.Legal Sys.InHeader
    (Sys.init (smallSuperBlock 20) fun _ => .zero)
    (.beginOp 0 :: syncMany 10 ++ [.acquire 300]) (by decide +kernel)
  have hfacts : (((Sys.init (smallSuperBlock 20) fun _ => .zero).exec (smallSuperBlock 20)
      (.beginOp 0 :: syncMany 10 ++ [.acquire 300])).toOption.map fun s =>
        decide (s.Legal (.sync (some 0) 300) ∧ opMaxNumBlocks < (insert 300 (s.syncedBy 0)).card ∧
          opMaxNumBlocks < (s.charged 0 300).card)) = some true := by
    decide +kernel
  rw [hexec] at hfacts
  obtain ⟨hlegal, hmany, hcharged⟩ := of_decide_eq_true (Option.some.inj hfacts)
  exact ⟨s, hexec, hmany, ((sync_limit_iff _ _ hruns hlegal).1.mpr (.inr hcharged)).mpr hmany⟩

/-- Block 200 was logged by another operation, so the eleventh block still passes. -/
theorem sync_passes_eleventh : ∃ s t,
    Runs (smallSuperBlock 20) Sys.Legal Sys.InHeader
      (Sys.init (smallSuperBlock 20) fun _ => .zero) s ∧
    s.Legal (.sync (some 0) 210) ∧ opMaxNumBlocks < (insert 210 (s.syncedBy 0)).card ∧
    s.step (smallSuperBlock 20) (.sync (some 0) 210) = .ok t := by
  obtain ⟨s, hexec, hruns⟩ := Runs.of_admits (smallSuperBlock 20) Sys.Legal Sys.InHeader
    (Sys.init (smallSuperBlock 20) fun _ => .zero)
    ([.beginOp 0, .beginOp 1, .acquire 200, .sync (some 1) 200, .release 200] ++ syncMany 10 ++
      [.acquire 210]) (by decide +kernel)
  have hfacts : (((Sys.init (smallSuperBlock 20) fun _ => .zero).exec (smallSuperBlock 20)
      ([.beginOp 0, .beginOp 1, .acquire 200, .sync (some 1) 200, .release 200] ++ syncMany 10 ++
        [.acquire 210])).toOption.map fun s =>
        decide (s.Legal (.sync (some 0) 210) ∧ opMaxNumBlocks < (insert 210 (s.syncedBy 0)).card ∧
          (s.step (smallSuperBlock 20) (.sync (some 0) 210)).isOk = true)) = some true := by
    decide +kernel
  rw [hexec] at hfacts
  obtain ⟨hlegal, hmany, hok⟩ := of_decide_eq_true (Option.some.inj hfacts)
  obtain ⟨t, hstep⟩ := exists_ok hok
  exact ⟨s, t, hruns, hlegal, hmany, hstep⟩

end KernelAarch64.Fs
