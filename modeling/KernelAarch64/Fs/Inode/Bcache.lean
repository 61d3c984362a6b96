import KernelAarch64.Fs.Cache.View
import KernelAarch64.Fs.Inode.Structs

/-!
# The inode layer over the block cache

`bcache` is the block cache of `cache.c` as the inode layer sees it, under one operation context.
The casts of the block pointer in `inode.c` reach the members of a `Block` before `data`, and then
bytes of `data` at other places. What these members hold is a parameter, and so is what a store
makes of the cache that changes one of them.

The lemmas say what the calls that `inode_write` makes do to the block cache while one operation is
under way (`Cache.Tame`).
-/

namespace KernelAarch64.Fs

open KernelAarch64.Lib

/-- `bcache`, the cache of `cache.c`. `head` are the members of a `Block` before `data`, and `spoil`
is what becomes of the cache when one of them is overwritten. -/
def bcache (sb : SuperBlock) (head : Cache → Nat → Nat → UInt8)
    (spoil : Nat → BlockData → Cache → Except Stop Cache) : BlockCache (Cache × OpContext) where
  acquire b s := do
    let (_, cache) ← cacheAcquire b s.1
    return (cache, s.2)
  release b s := do
    let cache ← cacheRelease b s.1
    return (cache, s.2)
  sync b s := do
    let (ctx, cache) ← unsafeCacheSync (some s.2) b s.1
    return (cache, ctx.getD s.2)
  alloc s := do
    let (b, ctx, cache) ← cacheAlloc sb (some s.2) s.1
    return (b, cache, ctx.getD s.2)
  free b s := do
    let (ctx, cache) ← cacheFree sb (some s.2) b s.1
    return (cache, ctx.getD s.2)
  data b s :=
    match getCache b s.1.blocks with
    | some blk => .ok blk.data
    | none => .error .fault
  setData b d s :=
    match getCache b s.1.blocks with
    | some _ => .ok (s.1.setBlock b (Block.setData d), s.2)
    | none => .error .fault
  bytes b s :=
    match getCache b s.1.blocks with
    | some blk => .ok (structBytes (head s.1 b) blk.data)
    | none => .error .fault
  setBytes b d s :=
    match getCache b s.1.blocks with
    | some blk =>
      if SameHeader (head s.1 b) d then
        .ok (s.1.setBlock b (Block.setData (structData blk.data d)), s.2)
      else (spoil b d s.1).map (·, s.2)
    | none => .error .fault

/-- The bitmap marks block `b` as allocated. -/
def Cache.Marked (sb : SuperBlock) (s : Cache) (b : Nat) : Prop :=
  (s.toCommit (bitmapBlock sb b)).bit (b % bitPerBlock) = true

/-! ## The layout of the disk

The super block says where everything is. That the parts do not overlap is an assumption of the
layers above. -/

/-- Block `b` holds inodes. -/
def InodeBlock (sb : SuperBlock) (b : Nat) : Prop := ∃ i < sb.numInodes.toNat, toBlockNo sb i = b

/-- Block `b` is a part of the bitmap. -/
def BitmapBlock (sb : SuperBlock) (b : Nat) : Prop := ∃ i < sb.numBlocks.toNat, bitmapBlock sb i = b

/-- Block `b` belongs to the data structures of the file system that go through the log. -/
def MetaBlock (sb : SuperBlock) (b : Nat) : Prop := InodeBlock sb b ∨ BitmapBlock sb b

/-- Block `b` can hold the data of a file, or be the indirect block of one. -/
def FileBlock (sb : SuperBlock) (b : Nat) : Prop :=
  b < sb.numBlocks.toNat ∧ ¬ logArea sb b ∧ ¬ MetaBlock sb b

instance (sb : SuperBlock) (b : Nat) : Decidable (InodeBlock sb b) := by
  unfold InodeBlock
  infer_instance

instance (sb : SuperBlock) (b : Nat) : Decidable (BitmapBlock sb b) := by
  unfold BitmapBlock
  infer_instance

instance (sb : SuperBlock) (b : Nat) : Decidable (MetaBlock sb b) := by
  unfold MetaBlock
  infer_instance

instance (sb : SuperBlock) (b : Nat) : Decidable (FileBlock sb b) := by
  unfold FileBlock
  infer_instance

/-- The log, the inodes and the bitmap are apart, as they are on every disk that was made for this
file system. -/
structure Layout (sb : SuperBlock) : Prop where
  log : 0 < sb.numLogBlocks.toNat
  notLog : ∀ b, MetaBlock sb b → ¬ logArea sb b
  apart : ∀ b, InodeBlock sb b → ¬ BitmapBlock sb b

/-- Such a block has a number. -/
theorem MetaBlock.lt {sb : SuperBlock} {b : Nat} (h : MetaBlock sb b) : b < 2 ^ 64 := by
  rcases h with ⟨i, hi, rfl⟩ | ⟨x, hx, rfl⟩
  · have := sb.inodeStart.toNat_lt
    have := sb.numInodes.toNat_lt
    unfold toBlockNo inodePerBlock blockSize
    omega
  · have := sb.numBlocks.toNat_lt
    exact bitmapBlock_lt sb (by omega)

/-! ## One operation under way

With a single operation outstanding its end is a commit, and nothing is committed before. -/

/-- One operation, with context `ctx`, is under way. It logged only inodes and parts of the bitmap,
and the log has room for what it may still log. -/
structure Cache.Tame (sb : SuperBlock) (s : Cache) (ctx : OpContext) : Prop where
  rep : s.Rep
  outstanding : s.outstanding = 1
  entries : ∀ b ∈ s.header.entries, MetaBlock sb b
  opsCnt : ctx.opsCnt ≤ opMaxNumBlocks
  room : s.header.numBlocks + opMaxNumBlocks ≤ logCapacity sb + ctx.opsCnt

namespace Cache.Tame

variable {sb : SuperBlock} {s u v t : Cache} {ctx : OpContext} {r : Option OpContext} {b x : Nat}
  {blk : Block} {d : BlockData}

/-- The log has room for what it lists. -/
theorem fits (h : s.Tame sb ctx) (hl : Layout sb) : s.Fits sb := by
  refine ⟨?_, fun b hb => (h.entries b hb).lt, fun b hb => hl.notLog b (h.entries b hb)⟩
  have := h.room
  have := h.opsCnt
  omega

/-- The log and the counters are untouched. -/
theorem of_header (h : s.Tame sb ctx) (hrep : t.Rep) (hheader : t.header = s.header)
    (hout : t.outstanding = s.outstanding) : t.Tame sb ctx := by
  refine ⟨hrep, hout.trans h.outstanding, ?_, h.opsCnt, ?_⟩
  · rw [hheader]
    exact h.entries
  · rw [hheader]
    exact h.room

/-- Acquiring a block logs nothing. -/
theorem acquire (h : s.Tame sb ctx) (hs : unsafeCacheAcquire x s = .ok (blk, t)) :
    t.Tame sb ctx :=
  h.of_header (h.rep.acquire hs) (unsafeCacheAcquire_header hs) (unsafeCacheAcquire_count hs).2.1

/-- Releasing a block logs nothing. -/
theorem release (h : s.Tame sb ctx) (hs : cacheRelease x s = .ok t) : t.Tame sb ctx := by
  have hrep := h.rep.release hs
  obtain ⟨-, rfl⟩ := cacheRelease_eq_ok.mp hs
  exact h.of_header hrep rfl rfl

/-- An assignment to a cached block logs nothing. -/
theorem store (h : s.Tame sb ctx) (x : Nat) (d : BlockData) :
    (s.setBlock x (Block.setData d)).Tame sb ctx :=
  h.of_header (h.rep.setData x d) rfl rfl

/-- A write to the device logs nothing. -/
theorem deviceWrite (h : s.Tame sb ctx) (x : Nat) (d : BlockData) :
    (s.deviceWrite x d).Tame sb ctx :=
  h.of_header (h.rep.deviceWrite x d) rfl rfl

/-- A change to an inode block or a bitmap block that is synced before the block is released. -/
theorem update (h : s.Tame sb ctx) (hx : MetaBlock sb x)
    (hacq : unsafeCacheAcquire x s = .ok (blk, u))
    (hsync : unsafeCacheSync (some ctx) x (u.setBlock x (Block.setData d)) = .ok (r, v))
    (hrel : cacheRelease x v = .ok t) :
    ∃ ctx', r = some ctx' ∧ t.Tame sb ctx' ∧ Touches {x} s t ∧ t.CleanAt x ∧ t.toCommit x = d := by
  have hu := h.acquire hacq
  obtain ⟨hrep, htouch, hclean, hcommit⟩ := h.rep.update hacq hsync hrel
  obtain ⟨ctx', rfl, hcnt, hsum, hout, -⟩ := unsafeCacheSync_count hsync
  obtain ⟨-, rfl⟩ := cacheRelease_eq_ok.mp hrel
  refine ⟨ctx', rfl, ⟨hrep, hout.trans hu.outstanding, ?_, hcnt, ?_⟩, htouch, hclean, hcommit⟩
  · intro b hb
    by_cases hbx : b = x
    · rw [hbx]
      exact hx
    · exact h.entries b ((htouch.entries b hbx).mp hb)
  · have hroom := hu.room
    simp only [setBlock_header] at hsum ⊢
    omega

/-- `cache_alloc` finds a block that its bitmap block does not mark, marks it and clears it on the
device. -/
theorem alloc (h : s.Tame sb ctx) (hs : cacheAlloc sb (some ctx) s = .ok (b, r, t)) :
    b < sb.numBlocks.toNat ∧ ∃ ctx' v d, r = some ctx' ∧ t = v.deviceWrite b .zero ∧
      v.Tame sb ctx' ∧ Touches {bitmapBlock sb b} s v ∧ v.CleanAt (bitmapBlock sb b) ∧
      v.toCommit (bitmapBlock sb b) = d.setBit (b % bitPerBlock) ∧
      d.bit (b % bitPerBlock) = false ∧
      (s.CleanAt (bitmapBlock sb b) → d = s.toCommit (bitmapBlock sb b)) := by
  obtain ⟨hb, u, v, hscan, hflip, rfl⟩ := cacheAlloc_eq_ok hs
  obtain ⟨blk, w, y, hacq, hclear, hsync, hrel⟩ := hflip.run
  obtain ⟨-, hout, -⟩ := hscan.count
  have hu := h.of_header (hscan.rep h.rep) hscan.header hout
  have htouch := touches_scanned h.rep hscan
  obtain ⟨ctx', rfl, hv, htouch', hclean, hcommit⟩ := hu.update (.inr ⟨b, hb, rfl⟩) hacq hsync hrel
  have hdata : s.CleanAt (bitmapBlock sb b) → blk.data = s.toCommit (bitmapBlock sb b) := by
    intro hcl
    obtain ⟨hget, -⟩ := hu.rep.getCache_acquire hacq
    have hw := htouch.trans (touches_acquire hu.rep hacq)
    rw [← hw.toCommit (Set.notMem_empty _)]
    exact hw.cleanAt h.rep (Set.notMem_empty _) hcl blk hget
  exact ⟨hb, ctx', v, blk.data, rfl, rfl, hv, (htouch.mono (Set.empty_subset _)).trans htouch',
    hclean, hcommit, hclear, hdata⟩

end Cache.Tame

/-! ## The calls of the inode layer

What each function pointer of the cache does, in terms of the functions of `cache.c`. -/

section Calls

variable {sb : SuperBlock} {head : Cache → Nat → Nat → UInt8}
  {spoil : Nat → BlockData → Cache → Except Stop Cache} {s t : Cache × OpContext} {b x : Nat}
  {d : BlockData}

theorem bcache_acquire (h : (bcache sb head spoil).acquire x s = .ok t) :
    ∃ blk cache, unsafeCacheAcquire x s.1 = .ok (blk, cache) ∧ t = (cache, s.2) := by
  obtain ⟨⟨blk, cache⟩, hacq, h⟩ := bind_eq_ok.mp h
  cases h
  exact ⟨blk, cache, hacq, rfl⟩

theorem bcache_release (h : (bcache sb head spoil).release x s = .ok t) :
    ∃ cache, cacheRelease x s.1 = .ok cache ∧ t = (cache, s.2) := by
  obtain ⟨cache, hrel, h⟩ := bind_eq_ok.mp h
  cases h
  exact ⟨cache, hrel, rfl⟩

/-- `sync` is `cache_sync` under the operation. -/
theorem bcache_sync (h : (bcache sb head spoil).sync x s = .ok t) :
    ∃ r cache, unsafeCacheSync (some s.2) x s.1 = .ok (r, cache) ∧ t = (cache, r.getD s.2) := by
  obtain ⟨⟨r, cache⟩, hsync, h⟩ := bind_eq_ok.mp h
  cases h
  exact ⟨r, cache, hsync, rfl⟩

/-- `alloc` is `cache_alloc` under the operation. -/
theorem bcache_alloc (h : (bcache sb head spoil).alloc s = .ok (b, t)) :
    ∃ r, cacheAlloc sb (some s.2) s.1 = .ok (b, r, t.1) ∧ t.2 = r.getD s.2 := by
  obtain ⟨⟨b', r, cache⟩, halloc, h⟩ := bind_eq_ok.mp h
  cases h
  exact ⟨r, halloc, rfl⟩

/-- An assignment through `block->data`. -/
theorem bcache_setData (h : (bcache sb head spoil).setData x d s = .ok t) :
    t = (s.1.setBlock x (Block.setData d), s.2) := by
  simp only [bcache] at h
  split at h
  · cases h
    rfl
  · cases h

/-- A store through a cast that leaves the other members alone changes `data` of its block. -/
theorem bcache_setBytes (h : (bcache sb head spoil).guarded.setBytes x d s = .ok t) :
    ∃ d', t = (s.1.setBlock x (Block.setData d'), s.2) := by
  obtain ⟨old, hold, h⟩ := bind_eq_ok.mp h
  simp only [bcache] at hold h
  cases hget : getCache x s.1.blocks with
  | none =>
    rw [hget] at hold
    cases hold
  | some blk =>
    rw [hget] at hold h
    cases hold
    split at h
    · next hsame =>
      have hheader : SameHeader (head s.1 x) d := fun k hk =>
        (hsame k hk).trans (byte_structBytes_head hk)
      simp only [if_pos hheader, Except.ok.injEq] at h
      exact ⟨_, h.symm⟩
    · cases h

end Calls

end KernelAarch64.Fs
