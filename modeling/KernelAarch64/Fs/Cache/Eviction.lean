import KernelAarch64.Fs.Cache.Accounting
import Mathlib.Data.List.Nodup

/-!
# What an acquisition evicts

`unsafe_cache_acquire` calls the scavenger when more than `EVICTION_THRESHOLD` blocks are cached.
The first part is the bound it keeps. The second part is the order in which it evicts: the list of
cached blocks starts with the block inserted last, and this is where the scavenger starts too, so it
evicts the latest block first.

To speak of the order, `Aged` keeps the numbers of the blocks that `insert_cache` was called for.
Its runs are made of the simple actions: `cache_alloc` and `cache_free` are sequences of these
(`Fs.Cache.Bitmap`), and so every state of the system is one of `Aged` (`Runs.aged`).
-/

namespace KernelAarch64.Fs

open KernelAarch64.Lib

/-- The cache when `unsafe_cache_acquire(b)` comes to the eviction. -/
def Cache.claimed (s : Cache) (b : Nat) : Cache := (loadBlock b s).setBlock b Block.lock

section Claimed

variable {s : Cache} {b : Nat} {l : List Block}

/-- The invariant holds when the eviction starts. -/
theorem Cache.Rep.claimed (h : s.Rep) (b : Nat) : (s.claimed b).Rep := (h.loadBlock b).lock b

/-- One block more is cached if it was not there. -/
theorem Cache.claimed_cachedNum (s : Cache) (b : Nat) :
    (s.claimed b).cachedNum = s.cachedNum + if getCache b s.blocks = none then 1 else 0 := by
  show (loadBlock b s).cachedNum = _
  unfold loadBlock
  cases h : getCache b s.blocks <;> simp

/-- The scavenger as `unsafe_cache_acquire` calls it. -/
theorem evict_eq (s : Cache) : ∃ l₁ l₂, s.blocks = l₁ ++ l₂ ∧
    (evict s).blocks = l₁.filter Block.busy ++ l₂ ∧
    (l₂ = [] ∨ (evict s).cachedNum ≤ evictionThreshold) ∧
    (evictionThreshold ≤ s.cachedNum → evictionThreshold ≤ (evict s).cachedNum) := by
  unfold evict
  split
  · exact scavenger_eq s.blocks s.cachedNum
  · next hn => exact ⟨[], s.blocks, rfl, rfl, .inr (Nat.not_lt.mp hn), id⟩

/-- The eviction only takes blocks out. -/
theorem evict_sublist (s : Cache) : (evict s).blocks.Sublist s.blocks := by
  unfold evict
  split
  · exact scavenger_sublist _ _
  · exact .refl _

/-- Below the threshold nothing is evicted. -/
theorem evict_of_le (h : s.cachedNum ≤ evictionThreshold) : evict s = s :=
  if_neg (Nat.not_lt.mpr h)

end Claimed

/-! ## The bound

The scavenger walks the whole list once, and stops as soon as the threshold is kept. So if it ends
with more blocks than the threshold, it has met all of them, and all that are left are busy. -/

/-- After an acquisition, in any reachable state and of any block, the cache is small or all of it
is in use. The block acquired is cached, and no block in use was evicted; below the threshold none
was. -/
theorem acquire_eviction_bound (sb : SuperBlock) (d : Disk) {s : Sys}
    (h : Runs sb Sys.Legal (fun _ => True) (Sys.init sb d) s) (b : Nat) {blk : Block}
    {cache : Cache} (hacq : unsafeCacheAcquire b s.cache = .ok (blk, cache)) :
    (cache.cachedNum ≤ evictionThreshold ∨
      ∀ a ∈ cache.blocks, a.acquired = true ∨ a.pinned = true) ∧
    cache.cachedNum = cache.blocks.length ∧
    getCache b cache.blocks = some blk ∧
    (∀ a ∈ (s.cache.claimed b).blocks, a.acquired = true ∨ a.pinned = true → a ∈ cache.blocks) ∧
    ((loadBlock b s.cache).cachedNum ≤ evictionThreshold →
      cache.blocks = (s.cache.claimed b).blocks) := by
  have hrep : s.cache.Rep := h.rep (Sys.init_rep sb d)
  have hblk := (hrep.getCache_acquire hacq).1
  have hcount := (hrep.acquire hacq).count
  obtain ⟨-, -, -, -, rfl⟩ := unsafeCacheAcquire_eq_ok.mp hacq
  obtain ⟨l₁, l₂, hl, hkept, hstop, -⟩ := evict_eq (s.cache.claimed b)
  refine ⟨?_, hcount, hblk, ?_, ?_⟩
  · rcases hstop with rfl | hle
    · refine .inr ?_
      intro a ha
      have hmem : a ∈ (evict (s.cache.claimed b)).blocks := ha
      rw [hkept, List.append_nil] at hmem
      simpa [Block.busy] using (List.mem_filter.mp hmem).2
    · exact .inl hle
  · intro a ha hbusy
    show a ∈ (evict (s.cache.claimed b)).blocks
    rw [hl] at ha
    rw [hkept, List.mem_append, List.mem_filter]
    rcases List.mem_append.mp ha with ha | ha
    · exact .inl ⟨ha, by simpa [Block.busy] using hbusy⟩
    · exact .inr ha
  · intro hle
    have hsmall : (s.cache.claimed b).cachedNum ≤ evictionThreshold := hle
    show (evict (s.cache.claimed b)).blocks = _
    rw [evict_of_le hsmall]

/-- Acquires and releases the first `n` blocks. -/
def touchBlocks (n : Nat) : List Action :=
  (List.range n).flatMap fun b => [.acquire b, .release b]

/-- The first 20 blocks are cached and free; block 20 takes the place of one of them. -/
theorem acquire_eviction_bound_full : ∃ s blk cache,
    (Sys.init (smallSuperBlock 20) fun _ => .zero).exec (smallSuperBlock 20) (touchBlocks 20) =
      .ok s ∧
    unsafeCacheAcquire 20 s.cache = .ok (blk, cache) ∧ cache.cachedNum ≤ evictionThreshold ∧
    getCache 20 cache.blocks = some blk := by
  obtain ⟨s, hexec, hruns⟩ := Runs.of_admits (smallSuperBlock 20) Sys.Legal (fun _ => True)
    (Sys.init (smallSuperBlock 20) fun _ => .zero) (touchBlocks 20) (by decide +kernel)
  have hrun : ((Sys.init (smallSuperBlock 20) fun _ => .zero).exec (smallSuperBlock 20)
      (touchBlocks 20)).toOption.all (fun u =>
        ((unsafeCacheAcquire 20 u.cache).toOption.any fun r => r.2.cachedNum = 20)) = true := by
    decide +kernel
  rw [hexec] at hrun
  cases hacq : unsafeCacheAcquire 20 s.cache with
  | error e => simp [Except.toOption, hacq] at hrun
  | ok r =>
    obtain ⟨blk, cache⟩ := r
    obtain ⟨-, -, hblk, -, -⟩ := acquire_eviction_bound _ _ hruns 20 hacq
    have hnum : cache.cachedNum = 20 := by simpa [Except.toOption, hacq] using hrun
    exact ⟨s, blk, cache, hexec, hacq, hnum.le, hblk⟩

/-! ## The order

`Sorted` is the invariant: the list of the cached blocks, read from `head.next` on, is sorted by the
last insertion, the latest first, because `insert_cache` puts a block behind `head` and nothing else
moves one. -/

/-- The system with the numbers of the blocks that `insert_cache` was called for, the latest
first. -/
structure Aged where
  sys : Sys
  inserted : List Nat

namespace Aged

/-- The calls of `insert_cache` when an acquisition of block `b` has inserted what it inserts. -/
def insertedAt (s : Aged) (b : Nat) : List Nat :=
  if getCache b s.sys.cache.blocks = none then b :: s.inserted else s.inserted

/-- The calls of `insert_cache` after an action. Only an acquisition of a block that is not cached
makes one. -/
def insertedBy (s : Aged) : Action → List Nat
  | .acquire b => s.insertedAt b
  | _ => s.inserted

/-- One simple action. -/
def Step (sb : SuperBlock) (s t : Aged) : Prop :=
  ∃ a : Action, a.Simple ∧ s.sys.Legal a ∧ s.sys.step sb a = .ok t.sys ∧ t.inserted = s.insertedBy a

/-- The states of the block cache after `init_bcache`, with the history of its list. -/
def Reachable (sb : SuperBlock) (d : Disk) : Aged → Prop :=
  Relation.ReflTransGen (Step sb) ⟨Sys.init sb d, []⟩

/-- The last insertion of block `x` came before the last one of block `y`. -/
def InsertedBefore (inserted : List Nat) (x y : Nat) : Prop :=
  x ∈ inserted ∧ inserted.idxOf y < inserted.idxOf x

instance (inserted : List Nat) (x y : Nat) : Decidable (InsertedBefore inserted x y) :=
  inferInstanceAs (Decidable (_ ∧ _))

/-- The numbers `l` are in the order of their last insertions, the latest first. -/
structure Sorted (inserted l : List Nat) : Prop where
  mem : ∀ x ∈ l, x ∈ inserted
  pairwise : l.Pairwise fun x y => InsertedBefore inserted y x

end Aged

/-- When `unsafe_cache_acquire(b)` takes the list `before` to `after`, no block that is neither
acquired nor pinned and was inserted before an evicted one survives. -/
def OldestFirst (inserted : List Nat) (before after : List Block) : Prop :=
  ∀ x ∈ before, x.blockNo ∉ after.map Block.blockNo →
    ∀ y ∈ after, y.acquired = false → y.pinned = false →
      ¬ Aged.InsertedBefore inserted y.blockNo x.blockNo

instance (inserted : List Nat) (before after : List Block) :
    Decidable (OldestFirst inserted before after) :=
  inferInstanceAs (Decidable (∀ x ∈ before, _))

namespace Aged

variable {inserted l m : List Nat} {b : Nat}

/-- Blocks that are taken out do not change the order of the others. -/
theorem Sorted.sublist (h : Sorted inserted l) (hm : m.Sublist l) : Sorted inserted m :=
  ⟨fun x hx => h.mem x (hm.subset hx), h.pairwise.sublist hm⟩

/-- A new block goes to the front, and its insertion is the latest. -/
theorem Sorted.insert (h : Sorted inserted l) (hb : b ∉ l) : Sorted (b :: inserted) (b :: l) := by
  have hne : ∀ x ∈ l, b ≠ x := fun x hx hbx => hb (hbx ▸ hx)
  refine ⟨?_, List.pairwise_cons.mpr ⟨?_, ?_⟩⟩
  · intro x hx
    rcases List.mem_cons.mp hx with rfl | hx
    · exact List.mem_cons_self
    · exact List.mem_cons_of_mem b (h.mem x hx)
  · intro x hx
    refine ⟨List.mem_cons_of_mem b (h.mem x hx), ?_⟩
    rw [List.idxOf_cons_self, List.idxOf_cons_ne _ (hne x hx)]
    exact Nat.succ_pos _
  · apply h.pairwise.imp_of_mem
    intro x y hx hy hxy
    refine ⟨List.mem_cons_of_mem b hxy.1, ?_⟩
    rw [List.idxOf_cons_ne _ (hne x hx), List.idxOf_cons_ne _ (hne y hy)]
    exact Nat.succ_lt_succ hxy.2

end Aged

section Order

variable {sb : SuperBlock} {s t : Sys} {b : Nat}

/-- The list when the eviction starts. -/
theorem Cache.map_blockNo_claimed (s : Cache) (b : Nat) :
    (s.claimed b).blocks.map Block.blockNo =
      if getCache b s.blocks = none then b :: s.blocks.map Block.blockNo
      else s.blocks.map Block.blockNo := by
  show (setCache b Block.lock (loadBlock b s).blocks).map Block.blockNo = _
  rw [map_blockNo_setCache (f := Block.lock) fun _ => rfl]
  unfold loadBlock
  cases h : getCache b s.blocks with
  | some a => simp
  | none => simp [insertCache]

/-- Only an acquisition changes which blocks are in the list, and where. All other actions assign to
fields of the blocks, and none of them to the number. -/
theorem step_map_blockNo {a : Action} (hsimple : a.Simple) (hacq : ∀ b, a ≠ .acquire b)
    (hrep : s.cache.Rep) (h : s.step sb a = .ok t) :
    t.cache.blocks.map Block.blockNo = s.cache.blocks.map Block.blockNo := by
  cases a with
  | acquire b => exact absurd rfl (hacq b)
  | change c b d =>
    obtain ⟨-, rfl⟩ := step_change.mp h
    exact map_blockNo_setCache (f := Block.setData d) (fun _ => rfl) b _
  | sync c b =>
    cases c with
    | none =>
      obtain ⟨-, rfl⟩ := step_sync_null.mp h
      rfl
    | some c =>
      obtain ⟨ctx, ctx', cache, -, hsync, rfl⟩ := step_sync.mp h
      obtain ⟨-, ⟨-, -, -, rfl⟩ | ⟨-, -, -, rfl⟩⟩ := unsafeCacheSync_ctx.mp hsync
      all_goals exact map_blockNo_setCache (f := Block.pin) (fun _ => rfl) b _
  | release b =>
    obtain ⟨-, rfl⟩ := step_release.mp h
    exact map_blockNo_setCache (f := Block.unlock) (fun _ => rfl) b _
  | beginOp c =>
    obtain ⟨-, rfl⟩ := step_beginOp.mp h
    rfl
  | endOp c =>
    obtain ⟨ctx, cache, -, hend, rfl⟩ := step_endOp.mp h
    rcases cacheEndOp_eq_ok.mp hend with ⟨-, u, hu, rfl⟩ | ⟨-, rfl⟩
    · obtain ⟨g, dev, heq⟩ := commit_frame sb hrep
      rw [heq] at hu
      cases hu
      exact map_blockNo_unpinAll _ _
    · rfl
  | alloc c => exact hsimple.elim
  | free c b => exact hsimple.elim
  | zero b =>
    cases step_zero.mp h
    rfl

/-- The order when the eviction starts. -/
theorem Aged.sorted_claimed {s : Aged}
    (h : Sorted s.inserted (s.sys.cache.blocks.map Block.blockNo)) (b : Nat) :
    Sorted (s.insertedAt b) ((s.sys.cache.claimed b).blocks.map Block.blockNo) := by
  rw [Cache.map_blockNo_claimed, insertedAt]
  by_cases hb : getCache b s.sys.cache.blocks = none
  · rw [if_pos hb, if_pos hb]
    apply h.insert
    intro hmem
    obtain ⟨blk, hblk, hno⟩ := List.mem_map.mp hmem
    exact getCache_eq_none.mp hb blk hblk hno
  · rw [if_neg hb, if_neg hb]
    exact h

/-- In every reachable state the list is in the order of the insertions, the last one first. By
induction on the run: a new block comes to the front, and what is evicted leaves a sublist. -/
theorem Aged.Reachable.sorted {d : Disk} {s : Aged} (h : Reachable sb d s) :
    s.sys.cache.Rep ∧ Sorted s.inserted (s.sys.cache.blocks.map Block.blockNo) := by
  induction h with
  | refl =>
    obtain ⟨g, dev, heq⟩ := initBcache_eq sb d
    have hempty : (Sys.init sb d).cache.blocks = [] := by simp [Sys.init, heq]
    refine ⟨Sys.init_rep sb d, ?_⟩
    rw [hempty]
    exact ⟨fun x hx => absurd hx List.not_mem_nil, .nil⟩
  | tail _ hlast ih =>
    rename_i u v _
    obtain ⟨hrep, hsorted⟩ := ih
    obtain ⟨a, hsimple, -, hstep, hins⟩ := hlast
    refine ⟨Sys.rep_step hrep hstep, ?_⟩
    by_cases hacq : ∃ b, a = .acquire b
    · obtain ⟨b, rfl⟩ := hacq
      obtain ⟨blk, cache, hacq, hv⟩ := step_acquire.mp hstep
      obtain ⟨-, -, -, -, rfl⟩ := unsafeCacheAcquire_eq_ok.mp hacq
      rw [hins, hv]
      refine (sorted_claimed hsorted b).sublist (List.Sublist.map _ ?_)
      exact evict_sublist _
    · have hother : ∀ b, a ≠ .acquire b := fun b hb => hacq ⟨b, hb⟩
      have hsame : u.insertedBy a = u.inserted := by
        cases a with
        | acquire b => exact absurd rfl (hother b)
        | _ => rfl
      rw [hins, hsame, step_map_blockNo hsimple hother hrep hstep]
      exact hsorted

theorem countP_busy_evict (s : Cache) :
    (evict s).blocks.countP Block.busy = s.blocks.countP Block.busy := by
  obtain ⟨l₁, l₂, hl, hkept, -⟩ := evict_eq s
  rw [hkept, hl, List.countP_append, List.countP_append, List.countP_filter]
  simp

/-- When enough blocks are busy, all the others are evicted, since the busy ones alone keep the
number from falling below the threshold. -/
theorem busy_of_mem_evict {s : Cache} (hrep : s.Rep)
    (hmany : evictionThreshold ≤ s.blocks.countP Block.busy)
    {y : Block} (hy : y ∈ (evict s).blocks) : y.busy = true := by
  obtain ⟨l₁, l₂, hl, hkept, hstop, -⟩ := evict_eq s
  rcases hstop with rfl | hle
  · rw [hkept, List.append_nil] at hy
    exact (List.mem_filter.mp hy).2
  · -- The list is as long as the number of busy blocks in it.
    have hcount : (evict s).cachedNum = (evict s).blocks.length := hrep.evict.count
    have hbusy := countP_busy_evict s
    have hlen : (evict s).blocks.countP Block.busy = (evict s).blocks.length := by
      have := List.countP_le_length (p := Block.busy) (l := (evict s).blocks)
      omega
    exact List.countP_eq_length.mp hlen y hy

/-- When few blocks are busy, the scavenger evicts a block and leaves one it could evict, and what
it leaves comes later in the list. -/
theorem evict_of_few {s : Cache} (hrep : s.Rep)
    (hfew : s.blocks.countP Block.busy < evictionThreshold)
    (hbig : evictionThreshold < s.cachedNum) :
    ∃ l₁ l₂ x y, s.blocks = l₁ ++ l₂ ∧ x ∈ l₁ ∧ x.blockNo ∉ (evict s).blocks.map Block.blockNo ∧
      y ∈ l₂ ∧ y ∈ (evict s).blocks ∧ y.busy = false := by
  obtain ⟨l₁, l₂, hl, hkept, hstop, hge⟩ := evict_eq s
  have hcount : (evict s).cachedNum = (evict s).blocks.length := hrep.evict.count
  have hleft := hge hbig.le
  have hbusy := countP_busy_evict s
  obtain ⟨y, hy, hyfree⟩ : ∃ y ∈ (evict s).blocks, y.busy = false := by
    by_contra hall
    push Not at hall
    have hlen := List.countP_eq_length.mpr fun y hy => Bool.of_not_eq_false (hall y hy)
    omega
  have hy₂ : y ∈ l₂ := by
    rw [hkept, List.mem_append, List.mem_filter] at hy
    rcases hy with ⟨-, hybusy⟩ | hy
    · simp [hyfree] at hybusy
    · exact hy
  have hsmall : (evict s).cachedNum ≤ evictionThreshold := by
    rcases hstop with rfl | hle
    · cases hy₂
    · exact hle
  -- The list got shorter, so something went.
  obtain ⟨x, hx, hxfree⟩ : ∃ x ∈ l₁, x.busy = false := by
    by_contra hall
    push Not at hall
    have hsame : l₁.filter Block.busy = l₁ :=
      List.filter_eq_self.mpr fun x hx => Bool.of_not_eq_false (hall x hx)
    rw [hkept, hsame, ← hl, ← hrep.count] at hcount
    omega
  refine ⟨l₁, l₂, x, y, hl, hx, ?_, hy₂, hy, hyfree⟩
  intro hmem
  obtain ⟨z, hz, hzx⟩ := List.mem_map.mp hmem
  have hnodup := hrep.nodup
  rw [hl, List.map_append, List.nodup_append] at hnodup
  rw [hkept, List.mem_append, List.mem_filter] at hz
  rcases hz with ⟨hz, hzbusy⟩ | hz
  · have hzx' : z = x := List.inj_on_of_nodup_map hnodup.1 hz hx hzx
    rw [hzx', hxfree] at hzbusy
    cases hzbusy
  · exact hnodup.2.2 _ (List.mem_map_of_mem hx) _ (List.mem_map_of_mem hz) hzx.symm

/-- The scavenger starts with the latest block, so the oldest go first only if all blocks that can
be evicted go, or none does. -/
theorem oldestFirst_evict_iff {s : Cache} {inserted : List Nat} (hrep : s.Rep)
    (hsorted : Aged.Sorted inserted (s.blocks.map Block.blockNo)) :
    OldestFirst inserted s.blocks (evict s).blocks ↔
      s.cachedNum ≤ evictionThreshold ∨ evictionThreshold ≤ s.blocks.countP Block.busy := by
  constructor
  · intro h
    by_contra hcond
    rw [not_or, Nat.not_le, Nat.not_le] at hcond
    obtain ⟨l₁, l₂, x, y, hl, hx, hgone, hy₂, hy, hyfree⟩ := evict_of_few hrep hcond.2 hcond.1
    have hmem : x ∈ s.blocks := hl ▸ List.mem_append_left l₂ hx
    simp only [Block.busy, Bool.or_eq_false_iff] at hyfree
    apply h x hmem hgone y hy hyfree.1 hyfree.2
    rw [hl, List.map_append] at hsorted
    exact (List.pairwise_append.mp hsorted.pairwise).2.2 _ (List.mem_map_of_mem hx) _
      (List.mem_map_of_mem hy₂)
  · rintro (hsmall | hmany) x hx hgone y hy hacq hpin -
    · rw [evict_of_le hsmall] at hgone
      exact hgone (List.mem_map_of_mem hx)
    · have hybusy := busy_of_mem_evict hrep hmany hy
      simp [Block.busy, hacq, hpin] at hybusy

end Order

/-! ## Runs with the history of the list -/

namespace Aged

variable {sb : SuperBlock}

instance (a : Action) : Decidable a.Simple := by
  induction a using Action.casesOn <;> dsimp only [Action.Simple] <;> infer_instance

/-- The state after a list of actions, with the time of insertion of each block. It is used to
evaluate concrete runs. -/
def exec (sb : SuperBlock) : Aged → List Action → Except Stop Aged
  | s, [] => .ok s
  | s, a :: as => do
    let t ← s.sys.step sb a
    exec sb ⟨t, s.insertedBy a⟩ as

/-- A list of simple actions that passes the check is a run with a history. -/
theorem run_of_admits (sb : SuperBlock) (s : Aged) (as : List Action)
    (h : s.sys.admits sb (fun u a => a.Simple ∧ u.Legal a) (fun _ => True) as = true) :
    ∃ t, s.exec sb as = .ok t ∧ Relation.ReflTransGen (Step sb) s t := by
  induction as generalizing s with
  | nil => exact ⟨s, rfl, .refl⟩
  | cons a as ih =>
    obtain ⟨t, ⟨hsimple, hlegal⟩, hstep, -, ht⟩ := Sys.admits_cons h
    obtain ⟨u, hu, hruns⟩ := ih ⟨t, s.insertedBy a⟩ ht
    refine ⟨u, ?_, .head ⟨a, hsimple, hlegal, hstep, rfl⟩ hruns⟩
    rw [exec, hstep, ok_bind, hu]

/-- The list of cached blocks has a history in every run, also when blocks are allocated and
freed. -/
theorem exists_of_runs {d : Disk} {s : Sys}
    (h : Runs sb Sys.Legal (fun _ => True) (Sys.init sb d) s) :
    ∃ inserted, Reachable sb d ⟨s, inserted⟩ := by
  have hsteps : ∀ {u v : Sys} {a : Action}, a.Simple → u.Legal a → u.step sb a = .ok v →
      (∃ inserted, Reachable sb d ⟨u, inserted⟩) → ∃ inserted, Reachable sb d ⟨v, inserted⟩ := by
    rintro u v a hsimple hlegal hstep ⟨inserted, hu⟩
    exact ⟨_, hu.tail ⟨a, hsimple, hlegal, hstep, rfl⟩⟩
  let inv : Sys → Prop := fun u => ∃ inserted, Reachable sb d ⟨u, inserted⟩
  have hinit : inv (Sys.init sb d) := ⟨[], .refl⟩
  refine Runs.expand (P := fun _ => True) (Q := Sys.Legal) h hinit ?_ ?_ ?_ ?_ ?_ ?_ ?_
  · rintro u ⟨inserted, hu⟩
    exact hu.sorted.1
  · exact fun _ _ => trivial
  · exact fun _ _ => id
  · exact fun u v a hsimple hu hlegal hstep _ => hsteps hsimple hlegal hstep hu
  · exact fun _ _ _ _ => id
  · exact fun _ _ _ _ _ _ _ _ _ _ hlegal _ => hlegal
  · exact fun _ _ _ _ _ _ _ _ _ hlegal _ => hlegal

end Aged

/-! ## When the oldest go first

`oldestFirst_evict_iff` is about the list when the eviction starts; here its two cases are put as
conditions on the state before the call (`Cache.EvictsAllOrNone`). -/

/-- The number of cached blocks that are acquired or pinned, apart from block `b`. -/
def Cache.busyBeside (s : Cache) (b : Nat) : Nat :=
  s.blocks.countP fun blk => blk.busy && blk.blockNo ≠ b

/-- The block that is acquired is busy from then on, if it was not before. So the busy blocks are
those that were busy without it, and itself. -/
theorem countP_busy_lock {l : List Block} {b : Nat} (hnodup : (l.map Block.blockNo).Nodup)
    (hb : b ∈ l.map Block.blockNo) : (setCache b Block.lock l).countP Block.busy =
      (l.countP fun blk => blk.busy && blk.blockNo ≠ b) + 1 := by
  induction l with
  | nil => cases hb
  | cons a l ih =>
    rw [List.map_cons, List.nodup_cons] at hnodup
    have hcons : setCache b Block.lock (a :: l) =
        (if a.blockNo = b then a.lock else a) :: setCache b Block.lock l := rfl
    by_cases ha : a.blockNo = b
    · -- The block comes once, so the rest of the list stays as it is.
      have hrest : ∀ blk ∈ l, blk.blockNo ≠ b := by
        intro blk hblk hno
        exact hnodup.1 (ha ▸ hno ▸ List.mem_map_of_mem hblk)
      have hsame : setCache b Block.lock l = l := by
        conv_rhs => rw [← List.map_id l]
        apply List.map_congr_left
        intro blk hblk
        rw [if_neg (hrest blk hblk), id]
      have hcount : (l.countP fun blk => blk.busy && blk.blockNo ≠ b) = l.countP Block.busy := by
        apply List.countP_congr
        intro blk hblk
        simp [hrest blk hblk]
      have hlock : a.lock.busy = true := rfl
      rw [hcons, if_pos ha, hsame, List.countP_cons_of_pos hlock, ← hcount,
        List.countP_cons_of_neg (by simp [ha])]
    · have hmem : b ∈ l.map Block.blockNo := by
        rcases List.mem_cons.mp hb with hba | hmem
        · exact absurd hba.symm ha
        · exact hmem
      rw [hcons, if_neg ha, List.countP_cons, ih hnodup.2 hmem, List.countP_cons]
      simp only [ne_eq, ha, not_false_eq_true, decide_true, Bool.and_true]
      omega

/-- The busy blocks when the eviction starts: the one just acquired, and those beside it. -/
theorem Cache.Rep.countP_busy_claimed {s : Cache} (h : s.Rep) (b : Nat) :
    (s.claimed b).blocks.countP Block.busy = s.busyBeside b + 1 := by
  have hload := getCache_loadBlock_self b s
  obtain ⟨hmem, hno⟩ := getCache_eq_some hload
  have hb : b ∈ (Fs.loadBlock b s).blocks.map Block.blockNo := List.mem_map.mpr ⟨_, hmem, hno⟩
  rw [Cache.claimed, setBlock_blocks, countP_busy_lock (h.loadBlock b).nodup hb, busyBeside]
  congr 1
  unfold Fs.loadBlock
  cases getCache b s.blocks with
  | some a => rfl
  | none => simp [insertCache]

/-- Nothing is evicted, or everything that can be: the blocks, the one acquired included, fit below
the threshold, or as many of them as the threshold allows are acquired or pinned. -/
def Cache.EvictsAllOrNone (s : Cache) (b : Nat) : Prop :=
  (s.cachedNum + if getCache b s.blocks = none then 1 else 0) ≤ evictionThreshold ∨
    evictionThreshold ≤ s.busyBeside b + 1

/-- In every reachable state, an acquisition evicts the blocks inserted earliest exactly if it
evicts nothing, or all that is neither acquired nor pinned. -/
theorem acquire_oldestFirst_iff (sb : SuperBlock) (d : Disk) {s : Aged}
    (h : Aged.Reachable sb d s) (b : Nat) {blk : Block} {cache : Cache}
    (hacq : unsafeCacheAcquire b s.sys.cache = .ok (blk, cache)) :
    OldestFirst (s.insertedAt b) (s.sys.cache.claimed b).blocks cache.blocks ↔
      s.sys.cache.EvictsAllOrNone b := by
  obtain ⟨hrep, hsorted⟩ := h.sorted
  obtain ⟨-, -, -, -, rfl⟩ := unsafeCacheAcquire_eq_ok.mp hacq
  have hiff := oldestFirst_evict_iff (hrep.claimed b) (Aged.sorted_claimed hsorted b)
  rw [Cache.claimed_cachedNum, hrep.countP_busy_claimed] at hiff
  exact hiff

instance (s : Cache) (b : Nat) : Decidable (s.EvictsAllOrNone b) :=
  inferInstanceAs (Decidable (_ ∨ _))

/-- Holds the first 21 blocks and gives block 3 back. -/
def holdBlocks : List Action := (List.range 21).map .acquire ++ [.release 3]

/-- All the blocks that the eviction may take have to go, so their order does not matter. -/
theorem acquire_oldestFirst_busy : ∃ s blk cache,
    Aged.exec (smallSuperBlock 20) ⟨Sys.init (smallSuperBlock 20) fun _ => .zero, []⟩ holdBlocks =
      .ok s ∧
    unsafeCacheAcquire 21 s.sys.cache = .ok (blk, cache) ∧
    cache.cachedNum < (s.sys.cache.claimed 21).cachedNum ∧
    OldestFirst (s.insertedAt 21) (s.sys.cache.claimed 21).blocks cache.blocks := by
  obtain ⟨s, hexec, hruns⟩ := Aged.run_of_admits (smallSuperBlock 20)
    ⟨Sys.init (smallSuperBlock 20) fun _ => .zero, []⟩ holdBlocks (by decide +kernel)
  have hrun : (Aged.exec (smallSuperBlock 20) ⟨Sys.init (smallSuperBlock 20) fun _ => .zero, []⟩
      holdBlocks).toOption.all (fun u => (unsafeCacheAcquire 21 u.sys.cache).toOption.any fun r =>
        r.2.cachedNum < (u.sys.cache.claimed 21).cachedNum ∧ u.sys.cache.EvictsAllOrNone 21) =
      true := by
    decide +kernel
  rw [hexec] at hrun
  cases hacq : unsafeCacheAcquire 21 s.sys.cache with
  | error e => simp [Except.toOption, hacq] at hrun
  | ok r =>
    obtain ⟨blk, cache⟩ := r
    obtain ⟨hless, hcond⟩ : cache.cachedNum < (s.sys.cache.claimed 21).cachedNum ∧
        s.sys.cache.EvictsAllOrNone 21 := by
      simpa [Except.toOption, hacq] using hrun
    exact ⟨s, blk, cache, hexec, hacq, hless, (acquire_oldestFirst_iff _ _ hruns 21 hacq).mpr hcond⟩

/-- When the first 20 blocks were used one after the other and block 20 comes next, block 19 has to
go: the one inserted last. -/
theorem newest_evicted_first : ∃ s blk cache,
    Aged.Reachable (smallSuperBlock 20) (fun _ => .zero) s ∧
    unsafeCacheAcquire 20 s.sys.cache = .ok (blk, cache) ∧
    ¬ OldestFirst (s.insertedAt 20) (s.sys.cache.claimed 20).blocks cache.blocks := by
  obtain ⟨s, hexec, hruns⟩ := Aged.run_of_admits (smallSuperBlock 20)
    ⟨Sys.init (smallSuperBlock 20) fun _ => .zero, []⟩ (touchBlocks 20) (by decide +kernel)
  have hrun : (Aged.exec (smallSuperBlock 20) ⟨Sys.init (smallSuperBlock 20) fun _ => .zero, []⟩
      (touchBlocks 20)).toOption.all (fun u =>
        (unsafeCacheAcquire 20 u.sys.cache).toOption.any fun r =>
          ¬ OldestFirst (u.insertedAt 20) (u.sys.cache.claimed 20).blocks r.2.blocks) = true := by
    decide +kernel
  rw [hexec] at hrun
  cases hacq : unsafeCacheAcquire 20 s.sys.cache with
  | error e => simp [Except.toOption, hacq] at hrun
  | ok r =>
    obtain ⟨blk, cache⟩ := r
    exact ⟨s, blk, cache, hruns, hacq, by simpa [Except.toOption, hacq] using hrun⟩

end KernelAarch64.Fs
