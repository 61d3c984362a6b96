import KernelAarch64.Fs.Cache.Allocation
import KernelAarch64.Fs.Inode.Bcache

/-!
# The disk bitmap as an allocator

`cache_alloc` and `cache_free` reach the bitmap through the cache, so what they see is what a
reader finds there (`Cache.view`), whatever was evicted or committed before. Between calls no
bitmap block is acquired and all of them are clean; then `cache_alloc` is a search for the smallest
clear bit, and both calls change one bit. The block that `cache_alloc` clears on the device is
never a part of the bitmap or of the log, because the bits of those are set.

The invariant between the calls is `Cache.BitmapIdle` for the cache, and `Sys.Allocates` for the
system, which adds that the header lists bitmap blocks only and that the live blocks have their bits
set. `cacheAllocFrom_cases` is the search, by induction over the bitmap blocks that are left;
`BitmapIdle.cacheAlloc_cases` and `BitmapIdle.cacheFree_cases` list the ways in which a call can
end. The step lemmas of `Sys.Allocates` follow from these, `AllocRun.allocates` is the induction
over the run, and `allocRun_bitmap_allocator` is what it amounts to.
-/

namespace KernelAarch64.Fs

open KernelAarch64.Lib

/-- The blocks that hold no data of files: MBR, super block, log, inodes and bitmap. -/
def Reserved (sb : SuperBlock) (b : Nat) : Prop :=
  b = 0 ∨ b = 1 ∨ logArea sb b ∨ InodeBlock sb b ∨ BitmapBlock sb b

instance (sb : SuperBlock) (b : Nat) : Decidable (Reserved sb b) := by
  unfold Reserved
  infer_instance

/-- No block is acquired, except possibly `x`. -/
def Cache.QuietBut (x : Option Nat) (s : Cache) : Prop :=
  ∀ blk ∈ s.blocks, x ≠ some blk.blockNo → blk.locked = false

namespace Cache

variable {sb : SuperBlock} {s t u : Cache} {x b : Nat} {y : Option Nat} {blk : Block}

/-! ## Locks

Between the calls nothing is locked, so an acquisition can not hang. In the middle of a call one
bitmap block is. -/

/-- An assignment to other fields is no acquisition: it changes neither the number of a block nor
its lock. -/
theorem QuietBut.setBlock {f : Block → Block} (hno : ∀ blk, (f blk).blockNo = blk.blockNo)
    (hlock : ∀ blk, (f blk).locked = blk.locked) (h : s.QuietBut y) :
    (s.setBlock x f).QuietBut y := by
  intro a ha hy
  obtain ⟨a₀, ha₀, rfl⟩ := mem_setCache.mp ha
  split at hy
  · rename_i hx
    rw [hno] at hy
    rw [if_pos hx, hlock]
    exact h a₀ ha₀ hy
  · rename_i hx
    rw [if_neg hx]
    exact h a₀ ha₀ hy

/-- After an acquisition only this block is held. -/
theorem QuietBut.acquire (h : s.QuietBut none) (hacq : unsafeCacheAcquire x s = .ok (blk, t)) :
    t.QuietBut (some x) := by
  intro c hc hx
  obtain ⟨c₀, hc₀, rfl⟩ := mem_acquire hacq hc
  split at hx
  · next heq => exact absurd (congrArg some heq.symm) hx
  · next hne =>
    rw [if_neg hne]
    rcases hc₀ with hc₀ | rfl
    · exact h c₀ hc₀ (by simp)
    · rfl

/-- After the release of the block that is held, none is. -/
theorem QuietBut.release (h : s.QuietBut (some x)) (hrel : cacheRelease x s = .ok t) :
    t.QuietBut none := by
  obtain ⟨-, rfl⟩ := cacheRelease_eq_ok.mp hrel
  intro a ha _
  obtain ⟨a₀, ha₀, rfl⟩ := mem_setCache.mp ha
  split
  · rfl
  · rename_i hx
    apply h a₀ ha₀
    intro heq
    exact hx (Option.some.inj heq).symm

/-- A `sync` does not change who holds what. -/
theorem QuietBut.sync {c : OpContext} {r : Option OpContext} (h : s.QuietBut y)
    (hsync : unsafeCacheSync (some c) x s = .ok (r, t)) : t.QuietBut y := by
  obtain ⟨-, ⟨-, -, -, rfl⟩ | ⟨-, -, -, rfl⟩⟩ := unsafeCacheSync_ctx.mp hsync
  · exact h.setBlock (f := Block.pin) (fun _ => rfl) (fun _ => rfl)
  · exact QuietBut.setBlock (s := { s with header := s.header.push x }) (f := Block.pin)
      (fun _ => rfl) (fun _ => rfl) h

/-- A block that nobody holds can be acquired, with the content a reader finds. -/
theorem QuietBut.exists_acquire (h : s.QuietBut none) (x : Nat) :
    ∃ blk u, unsafeCacheAcquire x s = .ok (blk, u) ∧ blk.data = s.view x := by
  have hfree : CopyAt (fun blk => blk.locked = false) x s :=
    fun blk hblk => h blk (getCache_eq_some hblk).1 (by simp)
  obtain ⟨u, hacq⟩ := hfree.exists_acquire
  refine ⟨_, u, hacq, ?_⟩
  cases hx : getCache x s.blocks with
  | some a =>
    rw [view_of_getCache hx]
    rfl
  | none =>
    rw [view_of_not_cached hx]
    rfl

/-- A `sync` of a cached block fails only when the operation has too many blocks. -/
theorem sync_or_exceeds (c : OpContext) (h : getCache x s.blocks = some blk) :
    (∃ r v, unsafeCacheSync (some c) x s = .ok (r, v)) ∨
      unsafeCacheSync (some c) x s = .error (.panic "operation numbers exceed limit") := by
  unfold unsafeCacheSync
  simp only [h]
  by_cases hlimit : (if s.header.find x = s.header.numBlocks then (⟨c.opsCnt + 1⟩ : OpContext)
      else c).opsCnt > opMaxNumBlocks
  · rw [if_pos hlimit]
    exact .inr rfl
  · rw [if_neg hlimit]
    exact .inl ⟨_, _, rfl⟩

/-! ## The bitmap between calls

Looking into a bitmap block reads what `view` says, and leaves the bitmap idle. So the search is a
search in `view`, of which the cache only decides where the bits are read from. -/

/-- No block is acquired and the bitmap blocks are clean: a reader of the bitmap finds in the cache
or on the device what was written last. -/
structure BitmapIdle (sb : SuperBlock) (s : Cache) : Prop where
  rep : s.Rep
  quiet : s.QuietBut none
  clean : ∀ m, BitmapBlock sb m → s.CleanAt m

/-- A bitmap block that was not touched reads as before. -/
theorem BitmapIdle.view_eq {W : Set Nat} {m : Nat} (h : s.BitmapIdle sb) (ht : t.Rep)
    (htouch : Touches W s t) (hm : BitmapBlock sb m) (hW : m ∉ W) : t.view m = s.view m := by
  rw [(htouch.cleanAt h.rep hW (h.clean m hm)).view ht, htouch.toCommit hW, (h.clean m hm).view h.rep]

/-- Acquiring and releasing a block leaves the bitmap as it is, also if a block of the bitmap is
read from the device or evicted meanwhile. -/
theorem BitmapIdle.scan (h : s.BitmapIdle sb) (x : Nat) :
    ∃ blk u t, unsafeCacheAcquire x s = .ok (blk, u) ∧ blk.data = s.view x ∧
      cacheRelease x u = .ok t ∧ t.BitmapIdle sb ∧
      ∀ m, BitmapBlock sb m → t.view m = s.view m := by
  obtain ⟨blk, u, hacq, hdata⟩ := h.quiet.exists_acquire x
  obtain ⟨hget, -⟩ := h.rep.getCache_acquire hacq
  have hrel : cacheRelease x u = .ok (u.setBlock x Block.unlock) :=
    cacheRelease_eq_ok.mpr ⟨⟨blk, hget⟩, rfl⟩
  have htouch := (touches_acquire h.rep hacq).trans (touches_release hrel)
  have hrep := (h.rep.acquire hacq).release hrel
  refine ⟨blk, u, _, hacq, hdata, hrel, ⟨hrep, (h.quiet.acquire hacq).release hrel, ?_⟩, ?_⟩
  · intro m hm
    exact htouch.cleanAt h.rep (Set.notMem_empty m) (h.clean m hm)
  · intro m hm
    exact h.view_eq hrep htouch hm (Set.notMem_empty m)

/-- The search in one bitmap block: either all of the first `n` bits are set, or it stops at the
smallest clear one. -/
theorem findClear_cases (d : BlockData) (n : Nat) :
    (findClear d n = none ∧ ∀ j < n, d.bit j = true) ∨
      ∃ j < n, findClear d n = some j ∧ d.bit j = false ∧ ∀ i < j, d.bit i = true := by
  unfold findClear
  cases hf : (List.range n).find? fun j => d.bit j = false with
  | none =>
    refine .inl ⟨rfl, ?_⟩
    intro j hj
    have := List.find?_eq_none.mp hf j (List.mem_range.mpr hj)
    simpa using this
  | some j =>
    obtain ⟨hj, hclear⟩ := findClear_lt hf
    refine .inr ⟨j, hj, rfl, hclear, ?_⟩
    intro i hi
    obtain ⟨-, as, bs, heq, hbefore⟩ := List.find?_eq_some_iff_append.mp hf
    have hinit : as = List.range j := by
      have hlen : as.length = j := by
        have hget := congrArg (fun l => l[as.length]?) heq
        have hlt : as.length < n := by
          have := congrArg List.length heq
          simp at this
          omega
        simpa [hlt] using hget
      have htake := congrArg (List.take as.length) heq
      rw [List.take_left, hlen, List.take_range, Nat.min_eq_left (Nat.le_of_lt hj)] at htake
      exact htake.symm
    have := hbefore i (hinit ▸ List.mem_range.mpr hi)
    simpa using this

/-- How many bitmap blocks `cache_alloc` looks at. -/
abbrev numBitmapBlocks (sb : SuperBlock) : Nat :=
  (sb.numBlocks.toNat + (bitPerBlock - 1)) / bitPerBlock

/-- The bit of a block, by bitmap block and place in it. -/
theorem bitmapBit_split (d : Disk) {k j : Nat} (hj : j < bitPerBlock) :
    bitmapBit sb d (k * bitPerBlock + j) = (d (sb.bitmapStart.toNat + k)).bit j := by
  rw [bitmapBit, bitmapBlock, div_bitPerBlock hj, Nat.mul_add_mod_of_lt hj]

/-- The bits of the blocks before the first `m` of bitmap block `k`, and those. -/
theorem bitmapBit_extend {d : Disk} {k m : Nat} (hm : m ≤ bitPerBlock)
    (hbefore : ∀ b < sb.numBlocks.toNat, b < k * bitPerBlock → bitmapBit sb d b = true)
    (hset : ∀ j < m, (d (sb.bitmapStart.toNat + k)).bit j = true) :
    ∀ b < sb.numBlocks.toNat, b < k * bitPerBlock + m → bitmapBit sb d b = true := by
  intro b hb hbm
  by_cases hlow : b < k * bitPerBlock
  · exact hbefore b hb hlow
  · have hsplit : k * bitPerBlock + (b - k * bitPerBlock) = b := by omega
    rw [← hsplit, bitmapBit_split d (by omega)]
    exact hset _ (by omega)

/-- `cache_alloc` once it has found the clear bit of block `b`, in the cache `u`: the bit is set,
the bitmap block is synced and released, and the new block is zeroed on the device. -/
def markBlock (sb : SuperBlock) (ctx : Option OpContext) (b : Nat) (blk : Block) (u : Cache) :
    Except Stop (Nat × Option OpContext × Cache) := do
  let (ctx, s) ← unsafeCacheSync ctx (bitmapBlock sb b)
    (u.setBlock (bitmapBlock sb b) (Block.setData (blk.data.setBit (b % bitPerBlock))))
  let s ← cacheRelease (bitmapBlock sb b) s
  return (b, ctx, s.deviceWrite b .zero)

/-- The search of `cache_alloc`: it fails when all bits are set, and otherwise stops at the smallest
clear one. By induction on the bitmap blocks to go, with all bits before them set. -/
theorem cacheAllocFrom_cases (ctx : Option OpContext) {n k : Nat} (h : s.BitmapIdle sb)
    (hk : k + n = numBitmapBlocks sb)
    (hbefore : ∀ b < sb.numBlocks.toNat, b < k * bitPerBlock → bitmapBit sb s.view b = true) :
    ((∀ b < sb.numBlocks.toNat, bitmapBit sb s.view b = true) ∧
      cacheAllocFrom sb ctx n k s = .error (.panic "cache_alloc: no free block")) ∨
    ∃ b < sb.numBlocks.toNat, bitmapBit sb s.view b = false ∧
      (∀ b' < b, bitmapBit sb s.view b' = true) ∧
      ∃ u blk w, u.BitmapIdle sb ∧ Scanned s u ∧ (∀ m, BitmapBlock sb m → u.view m = s.view m) ∧
        unsafeCacheAcquire (bitmapBlock sb b) u = .ok (blk, w) ∧
        blk.data = s.view (bitmapBlock sb b) ∧
        cacheAllocFrom sb ctx n k s = markBlock sb ctx b blk w := by
  induction n generalizing k s with
  | zero =>
    refine .inl ⟨?_, rfl⟩
    intro b hb
    apply hbefore b hb
    -- No bitmap block is left, so every block comes before.
    unfold numBitmapBlocks bitPerBlock blockSize at *
    omega
  | succ n ih =>
    have hkn : k * bitPerBlock < sb.numBlocks.toNat := by
      unfold numBitmapBlocks bitPerBlock blockSize at *
      omega
    have hbm : BitmapBlock sb (sb.bitmapStart.toNat + k) := by
      refine ⟨k * bitPerBlock, hkn, ?_⟩
      rw [bitmapBlock, Nat.mul_div_cancel k (by decide)]
    obtain ⟨blk, u, t, hacq, hdata, hrel, ht, hview⟩ := h.scan (sb.bitmapStart.toNat + k)
    rw [cacheAllocFrom]
    simp only [hacq, ok_bind]
    rcases findClear_cases blk.data (min bitPerBlock (sb.numBlocks.toNat - k * bitPerBlock)) with
      ⟨hnone, hset⟩ | ⟨j, hj, hsome, hclear, hfirst⟩
    · -- this bitmap block is full: the search goes on with the next one
      simp only [hnone, hrel, ok_bind]
      -- Looking at a bitmap block changes nothing of what a reader finds.
      have hbits : ∀ b < sb.numBlocks.toNat, bitmapBit sb t.view b = bitmapBit sb s.view b := by
        intro b hb
        rw [bitmapBit, bitmapBit, hview _ ⟨b, hb, rfl⟩]
      have hbefore' : ∀ b < sb.numBlocks.toNat, b < (k + 1) * bitPerBlock →
          bitmapBit sb t.view b = true := by
        intro b hb hbk
        rw [hbits b hb]
        apply bitmapBit_extend (Nat.min_le_left _ _) hbefore (hdata ▸ hset) b hb
        rw [Nat.succ_mul] at hbk
        omega
      rcases ih ht (by omega) hbefore' with
        ⟨hall, herr⟩ | ⟨b, hb, hclear, hfirst, u', blk', w, hu', hscan, hview', hacq', hdata', heq⟩
      · refine .inl ⟨?_, herr⟩
        intro b hb
        rw [← hbits b hb]
        exact hall b hb
      · refine .inr ⟨b, hb, ?_, ?_, u', blk', w, hu', ?_, ?_, hacq', ?_, heq⟩
        · rw [← hbits b hb]
          exact hclear
        · intro b' hb'
          rw [← hbits b' (by omega)]
          exact hfirst b' hb'
        · refine .head ⟨_, blk, u, ?_, hacq, hrel⟩ hscan
          exact MetaBlock.lt (.inr hbm)
        · intro m hm
          rw [hview' m hm, hview m hm]
        · rw [hdata', hview _ ⟨b, hb, rfl⟩]
    · -- the clear bit is in this block
      have hjlt : j < bitPerBlock := by omega
      have hblock : bitmapBlock sb (k * bitPerBlock + j) = sb.bitmapStart.toNat + k := by
        rw [bitmapBlock, div_bitPerBlock hjlt]
      have hlt : k * bitPerBlock + j < sb.numBlocks.toNat :=
        Nat.add_lt_of_lt_sub' (Nat.lt_of_lt_of_le hj (Nat.min_le_right _ _))
      refine .inr ⟨k * bitPerBlock + j, hlt, ?_, ?_, s, blk, u, h, .refl, fun _ _ => rfl, ?_, ?_, ?_⟩
      · rw [bitmapBit_split s.view hjlt, ← hdata]
        exact hclear
      · intro b' hb'
        exact bitmapBit_extend (Nat.le_of_lt hjlt) hbefore (hdata ▸ hfirst) b' (by omega) hb'
      · rw [hblock]
        exact hacq
      · rw [hblock]
        exact hdata
      · rw [markBlock, hblock, Nat.mul_add_mod_of_lt hjlt]
        simp only [hsome]

/-! ## One call

A call that goes through has rewritten one bitmap block. With `BitChanged` this is a statement about
all the bits of the bitmap: one of them has the new value, and the others have the old one. -/

/-- Every bit of the bitmap that changed from `s` to `t` is the bit of block `b`, which is `v`
now. -/
def BitChanged (sb : SuperBlock) (b : Nat) (v : Bool) (s t : Cache) : Prop :=
  ∀ m, BitmapBlock sb m → ∀ j < bitPerBlock,
    (t.view m).bit j = if m = bitmapBlock sb b ∧ j = b % bitPerBlock then v else (s.view m).bit j

/-- The bits of the blocks of the device, before and after. The bit of a number is in one bitmap
block only, so that no other bit changes with it. -/
theorem BitChanged.bitmapBit {v : Bool} (h : BitChanged sb b v s t) {i : Nat}
    (hi : i < sb.numBlocks.toNat) :
    bitmapBit sb t.view i = if i = b then v else bitmapBit sb s.view i := by
  have hj : i % bitPerBlock < bitPerBlock := Nat.mod_lt i (by decide)
  have hbit : Fs.bitmapBit sb t.view i = _ := h (bitmapBlock sb i) ⟨i, hi, rfl⟩ _ hj
  rw [hbit]
  by_cases hib : i = b
  · rw [if_pos ⟨by rw [hib], by rw [hib]⟩, if_pos hib]
  · rw [if_neg ?_, if_neg hib, Fs.bitmapBit]
    intro hsame
    apply hib
    have hdiv : i / bitPerBlock = b / bitPerBlock := by
      have := hsame.1
      unfold bitmapBlock at this
      omega
    rw [← Nat.div_add_mod i bitPerBlock, hdiv, hsame.2, Nat.div_add_mod]

/-- A bitmap block is replaced: only it reads differently afterwards, and the bitmap stays clean. -/
structure Rewrites (sb : SuperBlock) (bm : Nat) (d : BlockData) (s t : Cache) : Prop where
  idle : t.BitmapIdle sb
  touches : Touches {bm} s t
  view : t.view bm = d

/-- The other bitmap blocks read as before. -/
theorem Rewrites.view_of_ne {bm m : Nat} {d : BlockData} (h : Rewrites sb bm d s t)
    (hs : s.BitmapIdle sb) (hm : BitmapBlock sb m) (hne : m ≠ bm) : t.view m = s.view m :=
  hs.view_eq h.idle.rep h.touches hm hne

/-- The new content differs in one bit. -/
theorem Rewrites.bitChanged {d : BlockData} {v : Bool} (h : Rewrites sb (bitmapBlock sb b) d s t)
    (hs : s.BitmapIdle sb) (hd : ∀ j < bitPerBlock,
      d.bit j = if j = b % bitPerBlock then v else (s.view (bitmapBlock sb b)).bit j) :
    BitChanged sb b v s t := by
  intro m hm j hj
  by_cases hmb : m = bitmapBlock sb b
  · subst hmb
    rw [h.view, hd j hj]
    simp
  · rw [h.view_of_ne hs hm hmb, if_neg fun hsame => hmb hsame.1]

/-- A change to an acquired bitmap block goes through, unless the operation is at its limit.
Afterwards nobody holds the block, and a reader finds the new content. -/
theorem BitmapIdle.rewrite (h : s.BitmapIdle sb) (c : OpContext) (d : BlockData)
    (hacq : unsafeCacheAcquire x s = .ok (blk, u)) :
    (∃ r v t, unsafeCacheSync (some c) x (u.setBlock x (Block.setData d)) = .ok (r, v) ∧
        cacheRelease x v = .ok t ∧ Rewrites sb x d s t) ∨
      unsafeCacheSync (some c) x (u.setBlock x (Block.setData d)) =
        .error (.panic "operation numbers exceed limit") := by
  obtain ⟨hget, -⟩ := h.rep.getCache_acquire hacq
  have hstored : getCache x (u.setBlock x (Block.setData d)).blocks = some (blk.setData d) := by
    rw [setBlock_blocks, getCache_setCache_self (f := Block.setData d) (fun _ => rfl), hget]
    rfl
  rcases sync_or_exceeds c hstored with ⟨r, v, hsync⟩ | hexceeds
  · refine .inl ⟨r, v, v.setBlock x Block.unlock, hsync, ?_⟩
    have hrel : cacheRelease x v = .ok (v.setBlock x Block.unlock) := by
      obtain ⟨y, hy⟩ : ∃ y, getCache x v.blocks = some y := by
        obtain ⟨-, ⟨-, -, -, rfl⟩ | ⟨-, -, -, rfl⟩⟩ := unsafeCacheSync_ctx.mp hsync
        all_goals
          rw [setBlock_blocks, getCache_setCache_self (f := Block.pin) (fun _ => rfl)]
          exact ⟨_, congrArg (Option.map Block.pin) hstored⟩
      exact cacheRelease_eq_ok.mpr ⟨⟨y, hy⟩, rfl⟩
    obtain ⟨hrep, htouch, hclean, hcommit⟩ := h.rep.update hacq hsync hrel
    have hquiet : (v.setBlock x Block.unlock).QuietBut none :=
      (((h.quiet.acquire hacq).setBlock (f := Block.setData d) (fun _ => rfl) fun _ => rfl).sync
        hsync).release hrel
    refine ⟨hrel, ⟨hrep, hquiet, ?_⟩, htouch, ?_⟩
    · intro m hm
      by_cases hmx : m = x
      · rw [hmx]
        exact hclean
      · exact htouch.cleanAt h.rep hmx (h.clean m hm)
    · rw [hclean.view hrep, hcommit]
  · exact .inr hexceeds

/-- Clearing a block that is no part of the bitmap leaves the bitmap alone. -/
theorem BitmapIdle.deviceWrite (h : s.BitmapIdle sb) (hb : ¬ BitmapBlock sb b) (d : BlockData) :
    (s.deviceWrite b d).BitmapIdle sb := by
  refine ⟨h.rep.deviceWrite b d, h.quiet, ?_⟩
  intro m hm
  apply (h.clean m hm).deviceWrite
  intro hmb
  exact hb (hmb ▸ hm)

/-- What `cache_alloc` does between calls: it panics on a full bitmap or at the limit of the
operation, and otherwise it returns the smallest free block and sets its bit. -/
theorem BitmapIdle.cacheAlloc_cases (h : s.BitmapIdle sb) (c : OpContext)
    (hself : ∀ b < sb.numBlocks.toNat, BitmapBlock sb b → bitmapBit sb s.view b = true) :
    ((∀ b < sb.numBlocks.toNat, bitmapBit sb s.view b = true) ∧
      cacheAlloc sb (some c) s = .error (.panic "cache_alloc: no free block")) ∨
    ((∃ b < sb.numBlocks.toNat, bitmapBit sb s.view b = false) ∧
      cacheAlloc sb (some c) s = .error (.panic "operation numbers exceed limit")) ∨
    ∃ b r t, cacheAlloc sb (some c) s = .ok (b, r, t) ∧ b < sb.numBlocks.toNat ∧
      bitmapBit sb s.view b = false ∧ (∀ i < b, bitmapBit sb s.view i = true) ∧
      t.BitmapIdle sb ∧ BitChanged sb b true s t ∧
      ∀ m ∈ t.header.entries, m = bitmapBlock sb b ∨ m ∈ s.header.entries := by
  rcases cacheAllocFrom_cases (some c) (n := numBitmapBlocks sb) (k := 0) h (by simp) (by simp) with
    hfull | ⟨b, hb, hclear, hfirst, u, blk, w, hu, hscan, hview, hacq, hdata, heq⟩
  · exact .inl hfull
  · have heq : cacheAlloc sb (some c) s = markBlock sb (some c) b blk w := heq
    rw [heq, markBlock]
    rcases hu.rewrite c (blk.data.setBit (b % bitPerBlock)) hacq with
      ⟨r, v, t, hsync, hrel, hrw⟩ | hexceeds
    · have hnot : ¬ BitmapBlock sb b := by
        intro hbm
        rw [hself b hb hbm] at hclear
        cases hclear
      have htouch : Touches {bitmapBlock sb b} s t :=
        ((touches_scanned h.rep hscan).mono (Set.empty_subset _)).trans hrw.touches
      have hchanged : BitChanged sb b true s t := by
        apply Rewrites.bitChanged ⟨hrw.idle, htouch, hrw.view⟩ h
        intro j hj
        rw [BlockData.bit_setBit _ _ hj, hdata]
        by_cases hjb : j = b % bitPerBlock <;> simp [hjb]
      refine .inr (.inr ⟨b, r, t.deviceWrite b .zero, ?_, hb, hclear, hfirst,
        hrw.idle.deviceWrite hnot _, ?_, ?_⟩)
      · simp only [hsync, hrel, ok_bind]
        rfl
      · intro m hm j hj
        have hmb : m ≠ b := fun hmb => hnot (hmb ▸ hm)
        rw [deviceWrite_view hmb, hchanged m hm j hj]
      · intro m hm
        by_cases hmb : m = bitmapBlock sb b
        · exact .inl hmb
        · exact .inr ((htouch.entries m hmb).mp hm)
    · refine .inr (.inl ⟨⟨b, hb, hclear⟩, ?_⟩)
      rw [hexceeds]
      rfl

/-- What `cache_free` does between calls: it panics on a free block or at the limit of the
operation, and otherwise it clears the bit and no other. -/
theorem BitmapIdle.cacheFree_cases (h : s.BitmapIdle sb) (c : OpContext) (b : Nat) :
    (bitmapBit sb s.view b = false ∧
      cacheFree sb (some c) b s = .error (.panic "cache_free: trying free a free block")) ∨
    (bitmapBit sb s.view b = true ∧
      cacheFree sb (some c) b s = .error (.panic "operation numbers exceed limit")) ∨
    (bitmapBit sb s.view b = true ∧
      ∃ r t, cacheFree sb (some c) b s = .ok (r, t) ∧ t.BitmapIdle sb ∧
        BitChanged sb b false s t ∧
        ∀ m ∈ t.header.entries, m = bitmapBlock sb b ∨ m ∈ s.header.entries) := by
  obtain ⟨blk, u, hacq, hdata⟩ := h.quiet.exists_acquire (bitmapBlock sb b)
  have hfold : sb.bitmapStart.toNat + b / bitPerBlock = bitmapBlock sb b := rfl
  have hbit : bitmapBit sb s.view b = blk.data.bit (b % bitPerBlock) := by
    rw [bitmapBit, hdata]
  simp only [cacheFree, hbit, hfold, hacq, ok_bind]
  cases hwas : blk.data.bit (b % bitPerBlock) with
  | false => exact .inl ⟨rfl, rfl⟩
  | true =>
    refine .inr ?_
    rcases h.rewrite c (blk.data.clearBit (b % bitPerBlock)) hacq with
      ⟨r, v, t, hsync, hrel, hrw⟩ | hexceeds
    · refine .inr ⟨rfl, r, t, ?_, hrw.idle, ?_, ?_⟩
      · simp only [Bool.true_eq_false, ↓reduceIte, hsync, hrel, ok_bind]
        rfl
      · apply hrw.bitChanged h
        intro j hj
        rw [BlockData.bit_clearBit _ _ hj, hdata]
        by_cases hjb : j = b % bitPerBlock <;> simp [hjb]
      · intro m hm
        by_cases hmb : m = bitmapBlock sb b
        · exact .inl hmb
        · exact .inr ((hrw.touches.entries m hmb).mp hm)
    · refine .inl ⟨rfl, ?_⟩
      simp only [Bool.true_eq_false, ↓reduceIte, hexceeds]
      rfl

/-- A commit leaves the bitmap as a reader finds it. The logged blocks go home with the content they
have in the cache. -/
theorem BitmapIdle.committed (h : s.BitmapIdle sb) (hfits : s.Fits sb)
    (hlog : 0 < sb.numLogBlocks.toNat) (hout : ∀ m, BitmapBlock sb m → ¬ logArea sb m)
    (hrep : (s.committed sb).Rep) :
    (s.committed sb).BitmapIdle sb ∧
      ∀ m, BitmapBlock sb m → (s.committed sb).view m = s.view m := by
  have hcommit : ∀ m, BitmapBlock sb m → (s.committed sb).toCommit m = s.toCommit m := by
    intro m hm
    have hempty : m ∉ (s.committed sb).header.entries := by
      simp [Cache.committed]
    rw [toCommit_of_not_mem hempty, hfits.disk_committed hlog (hout m hm)]
    rfl
  have hclean : ∀ m, BitmapBlock sb m → (s.committed sb).CleanAt m := by
    intro m hm
    unfold CleanAt
    rw [hcommit m hm]
    exact CopyAt.unpinAll (h.clean m hm) (fun _ hdata => hdata) rfl
  refine ⟨⟨hrep, ?_, hclean⟩, ?_⟩
  · intro blk hblk _
    obtain ⟨a, ha, rfl⟩ := List.mem_map.mp hblk
    have hfree := h.quiet a ha (by simp)
    split <;> exact hfree
  · intro m hm
    rw [(hclean m hm).view hrep, hcommit m hm, (h.clean m hm).view h.rep]

end Cache

/-! ## Whole runs

The runs consist of operations that allocate and free, in any interleaving, with commits and
evictions in between. -/

/-- A run of `cache_alloc` and `cache_free` of data blocks across atomic operations, with the log
never over capacity. The list has the blocks that were allocated in the run and not freed since. -/
inductive AllocRun (sb : SuperBlock) (d : Disk) : Sys → List Nat → Prop
  | init : AllocRun sb d (Sys.init sb d) []
  | beginOp {s t : Sys} {live : List Nat} {c : Nat} : AllocRun sb d s live →
    s.Legal (.beginOp c) → s.step sb (.beginOp c) = .ok t → AllocRun sb d t live
  | endOp {s t : Sys} {live : List Nat} {c : Nat} : AllocRun sb d s live →
    s.Legal (.endOp c) → s.step sb (.endOp c) = .ok t → AllocRun sb d t live
  | alloc {s t : Sys} {live : List Nat} {b c : Nat} : AllocRun sb d s live →
    s.Legal (.alloc c) → s.allocChoice sb c = some b → s.step sb (.alloc c) = .ok t →
    t.cache.header.numBlocks ≤ logCapacity sb → AllocRun sb d t (b :: live)
  | free {s t : Sys} {live : List Nat} {b c : Nat} : AllocRun sb d s live →
    s.Legal (.free c b) → b < sb.numBlocks.toNat → ¬ Reserved sb b →
    s.step sb (.free c b) = .ok t → t.cache.header.numBlocks ≤ logCapacity sb →
    AllocRun sb d t (live.erase b)

/-- The bit of block `b`, as the block cache has it. -/
abbrev Sys.bit (sb : SuperBlock) (s : Sys) (b : Nat) : Bool := bitmapBit sb s.cache.view b

/-- What holds between the calls of such a run: `live` are the blocks that were handed out and not
given back, and the bitmap says so. -/
structure Sys.Allocates (sb : SuperBlock) (s : Sys) (live : List Nat) : Prop where
  idle : s.cache.BitmapIdle sb
  entries : ∀ m ∈ s.cache.header.entries, BitmapBlock sb m
  capacity : s.cache.header.numBlocks ≤ logCapacity sb
  accounting : s.counters.Accounting sb.numLogBlocks.toNat
  reserved : ∀ b < sb.numBlocks.toNat, Reserved sb b → s.bit sb b = true
  live_set : ∀ b ∈ live, b < sb.numBlocks.toNat ∧ s.bit sb b = true
  nodup : live.Nodup

namespace Sys.Allocates

variable {sb : SuperBlock} {s t : Sys} {live : List Nat} {c b : Nat}

/-- The log has room for the bitmap blocks it lists. -/
theorem fits (h : s.Allocates sb live) (hout : ∀ m, BitmapBlock sb m → ¬ logArea sb m) :
    s.cache.Fits sb :=
  ⟨h.capacity, fun m hm => MetaBlock.lt (.inr (h.entries m hm)), fun m hm => hout m (h.entries m hm)⟩

/-- The bitmap still reads the same, and so the allocation does. Which steps keep the view is said
where they are taken. -/
theorem of_view (h : s.Allocates sb live) (hidle : t.cache.BitmapIdle sb)
    (hentries : ∀ m ∈ t.cache.header.entries, m ∈ s.cache.header.entries)
    (hcap : t.cache.header.numBlocks ≤ logCapacity sb)
    (hacc : t.counters.Accounting sb.numLogBlocks.toNat)
    (hview : ∀ m, BitmapBlock sb m → t.cache.view m = s.cache.view m) : t.Allocates sb live := by
  have hbit : ∀ b < sb.numBlocks.toNat, t.bit sb b = s.bit sb b := by
    intro b hb
    rw [Sys.bit, bitmapBit, hview _ ⟨b, hb, rfl⟩]
    rfl
  refine ⟨hidle, fun m hm => h.entries m (hentries m hm), hcap, hacc, ?_, ?_, h.nodup⟩
  · intro b hb hres
    rw [hbit b hb]
    exact h.reserved b hb hres
  · intro b hlive
    obtain ⟨hb, hset⟩ := h.live_set b hlive
    exact ⟨hb, (hbit b hb).trans hset⟩

/-- Beginning an operation does not touch the cache. -/
theorem beginOp (h : s.Allocates sb live) (hlegal : s.Legal (.beginOp c))
    (hstep : s.step sb (.beginOp c) = .ok t) : t.Allocates sb live := by
  have hacc := (Sys.step_counters hlegal hstep).accounting h.accounting
  have hrep := Sys.rep_step h.idle.rep hstep
  obtain ⟨-, rfl⟩ := step_beginOp.mp hstep
  exact h.of_view ⟨hrep, h.idle.quiet, h.idle.clean⟩ (fun _ hm => hm) h.capacity hacc fun _ _ => rfl

/-- An operation that ends commits the bitmap, or leaves it to the last one. -/
theorem endOp (h : s.Allocates sb live) (hout : ∀ m, BitmapBlock sb m → ¬ logArea sb m)
    (hlegal : s.Legal (.endOp c)) (hstep : s.step sb (.endOp c) = .ok t) : t.Allocates sb live := by
  have hacc := (Sys.step_counters hlegal hstep).accounting h.accounting
  have hrep := Sys.rep_step h.idle.rep hstep
  have hlog := log_pos_of_endOp h.accounting hstep
  obtain ⟨ctx, -, ⟨-, rfl⟩ | ⟨-, rfl⟩⟩ := step_endOp_cases h.idle.rep (h.fits hout) hlog hstep
  · obtain ⟨hidle, hview⟩ := h.idle.committed (h.fits hout) hlog hout hrep
    refine h.of_view hidle ?_ ?_ hacc hview
    · intro m hm
      simp [Cache.committed] at hm
    · exact Nat.zero_le _
  · exact h.of_view ⟨hrep, h.idle.quiet, h.idle.clean⟩ (fun _ hm => hm) h.capacity hacc
      fun _ _ => rfl

/-- A call that changed the bit of block `b` and no other, and logged at most the bitmap block of
`b`. Both `alloc` and `free` come down to this. -/
theorem of_bitChanged {v : Bool} {live' : List Nat} (h : s.Allocates sb live)
    (hidle : t.cache.BitmapIdle sb) (hchanged : Cache.BitChanged sb b v s.cache t.cache)
    (hb : b < sb.numBlocks.toNat)
    (hentries : ∀ m ∈ t.cache.header.entries,
      m = bitmapBlock sb b ∨ m ∈ s.cache.header.entries)
    (hcap : t.cache.header.numBlocks ≤ logCapacity sb)
    (hacc : t.counters.Accounting sb.numLogBlocks.toNat) (hres : Reserved sb b → v = true)
    (hlive : ∀ i ∈ live', i ∈ live ∧ i ≠ b ∨ i = b ∧ v = true) (hnodup : live'.Nodup) :
    t.Allocates sb live' := by
  have hbit : ∀ i < sb.numBlocks.toNat, t.bit sb i = if i = b then v else s.bit sb i := by
    intro i hi
    exact hchanged.bitmapBit hi
  refine ⟨hidle, ?_, hcap, hacc, ?_, ?_, hnodup⟩
  · intro m hm
    rcases hentries m hm with rfl | hm
    · exact ⟨b, hb, rfl⟩
    · exact h.entries m hm
  · intro i hi hr
    rw [hbit i hi]
    split
    · rename_i hib
      exact hres (hib ▸ hr)
    · exact h.reserved i hi hr
  · intro i hi
    rcases hlive i hi with ⟨hold, hne⟩ | ⟨rfl, hv⟩
    · obtain ⟨hlt, hset⟩ := h.live_set i hold
      refine ⟨hlt, ?_⟩
      rw [hbit i hlt, if_neg hne]
      exact hset
    · refine ⟨hb, ?_⟩
      rw [hbit i hb, if_pos rfl]
      exact hv

/-- What `cache_alloc` does in such a state. -/
theorem alloc_cases (h : s.Allocates sb live) (ctx : OpContext) :
    ((∀ b < sb.numBlocks.toNat, s.bit sb b = true) ∧
      cacheAlloc sb (some ctx) s.cache = .error (.panic "cache_alloc: no free block")) ∨
    ((∃ b < sb.numBlocks.toNat, s.bit sb b = false) ∧
      cacheAlloc sb (some ctx) s.cache = .error (.panic "operation numbers exceed limit")) ∨
    ∃ b r t, cacheAlloc sb (some ctx) s.cache = .ok (b, r, t) ∧ b < sb.numBlocks.toNat ∧
      s.bit sb b = false ∧ (∀ i < b, s.bit sb i = true) ∧
      t.BitmapIdle sb ∧ Cache.BitChanged sb b true s.cache t ∧
      ∀ m ∈ t.header.entries, m = bitmapBlock sb b ∨ m ∈ s.cache.header.entries :=
  h.idle.cacheAlloc_cases ctx fun b hb hbm => h.reserved b hb (.inr (.inr (.inr (.inr hbm))))

/-- A clear bit is of no live block. -/
theorem not_live (h : s.Allocates sb live) (hclear : s.bit sb b = false) : b ∉ live := by
  intro hlive
  rw [(h.live_set b hlive).2] at hclear
  cases hclear

/-- `cache_alloc` makes the block it returns live. It was not live before, as the bit of a live
block is set. -/
theorem alloc (h : s.Allocates sb live) (hlegal : s.Legal (.alloc c))
    (hchoice : s.allocChoice sb c = some b) (hstep : s.step sb (.alloc c) = .ok t)
    (hcap : t.cache.header.numBlocks ≤ logCapacity sb) : t.Allocates sb (b :: live) := by
  have hacc := (Sys.step_counters hlegal hstep).accounting h.accounting
  obtain ⟨ctx, r, b', cache, hc, halloc, rfl⟩ := step_alloc.mp hstep
  have hbb : b' = b := by simpa [Sys.allocChoice, hc, halloc] using hchoice
  subst hbb
  rcases h.alloc_cases ctx with ⟨-, herr⟩ | ⟨-, herr⟩ |
    ⟨b, r', t', hok, hb, hclear, -, hidle, hchanged, hentries⟩
  · rw [halloc] at herr
    cases herr
  · rw [halloc] at herr
    cases herr
  · rw [halloc] at hok
    cases hok
    have hnot := h.not_live hclear
    refine h.of_bitChanged hidle hchanged hb hentries hcap hacc (fun _ => rfl) ?_
      (List.nodup_cons.mpr ⟨hnot, h.nodup⟩)
    intro i hi
    rcases List.mem_cons.mp hi with rfl | hi
    · exact .inr ⟨rfl, rfl⟩
    · exact .inl ⟨hi, fun hib => hnot (hib ▸ hi)⟩

/-- `cache_free` takes a block out of the live ones. A block can be freed that was allocated before
the run; it is not live. -/
theorem free (h : s.Allocates sb live) (hlegal : s.Legal (.free c b))
    (hb : b < sb.numBlocks.toNat) (hres : ¬ Reserved sb b)
    (hstep : s.step sb (.free c b) = .ok t)
    (hcap : t.cache.header.numBlocks ≤ logCapacity sb) : t.Allocates sb (live.erase b) := by
  have hacc := (Sys.step_counters hlegal hstep).accounting h.accounting
  obtain ⟨ctx, r, cache, hc, hfree, rfl⟩ := step_free.mp hstep
  rcases h.idle.cacheFree_cases ctx b with ⟨-, herr⟩ | ⟨-, herr⟩ |
    ⟨-, r', t', hok, hidle, hchanged, hentries⟩
  · rw [hfree] at herr
    cases herr
  · rw [hfree] at herr
    cases herr
  · rw [hfree] at hok
    cases hok
    refine h.of_bitChanged hidle hchanged hb hentries hcap hacc (fun hr => absurd hr hres) ?_
      (h.nodup.erase b)
    intro i hi
    obtain ⟨hne, hold⟩ := h.nodup.mem_erase_iff.mp hi
    exact .inl ⟨hold, hne⟩

/-- At first the bitmap is what recovery left on the disk, and no block is live. That the reserved
blocks are marked there is the one thing that is assumed of it. -/
theorem init (sb : SuperBlock) (d : Disk)
    (hres : ∀ b < sb.numBlocks.toNat, Reserved sb b →
      bitmapBit sb (initBcache sb d).device.disk b = true) : (Sys.init sb d).Allocates sb [] := by
  have htidy := Sys.init_tidy sb d
  obtain ⟨g, dev, heq⟩ := initBcache_eq sb d
  have hblocks : (Sys.init sb d).cache.blocks = [] := by simp [Sys.init, heq]
  have hentries : (Sys.init sb d).cache.header.entries = [] := by simp [Sys.init, heq]
  refine ⟨⟨htidy.rep, ?_, ?_⟩, ?_, htidy.fits.capacity, Sys.init_accounting sb d _, ?_, by simp,
    List.nodup_nil⟩
  · intro blk hblk
    rw [hblocks] at hblk
    cases hblk
  · intro m _ blk hget
    rw [hblocks] at hget
    cases hget
  · intro m hm
    rw [hentries] at hm
    cases hm
  · intro b hb hr
    rw [Sys.bit, bitmapBit, Cache.view_of_not_cached (by rw [hblocks]; rfl)]
    exact hres b hb hr

end Sys.Allocates

/-- The induction over the run. -/
theorem AllocRun.allocates {sb : SuperBlock} {d : Disk} {s : Sys} {live : List Nat}
    (hout : ∀ m, BitmapBlock sb m → ¬ logArea sb m)
    (hres : ∀ b < sb.numBlocks.toNat, Reserved sb b →
      bitmapBit sb (initBcache sb d).device.disk b = true)
    (h : AllocRun sb d s live) : s.Allocates sb live := by
  induction h with
  | init => exact Sys.Allocates.init sb d hres
  | beginOp _ hlegal hstep ih => exact ih.beginOp hlegal hstep
  | endOp _ hlegal hstep ih => exact ih.endOp hout hlegal hstep
  | alloc _ hlegal hchoice hstep hcap ih => exact ih.alloc hlegal hchoice hstep hcap
  | free _ hlegal hb hr hstep hcap ih => exact ih.free hlegal hb hr hstep hcap

/-- After any run, `cache_alloc` and `cache_free` do to the bitmap what an allocator does, unless
the operation they are called in is at its limit of blocks: they panic exactly when there is nothing
to allocate or to free, and otherwise change the one bit of the block they return or free. -/
theorem allocRun_bitmap_allocator (sb : SuperBlock) (d : Disk)
    (hout : ∀ m, BitmapBlock sb m → ¬ logArea sb m)
    (hres : ∀ b < sb.numBlocks.toNat, Reserved sb b →
      bitmapBit sb (initBcache sb d).device.disk b = true)
    {s : Sys} {live : List Nat} (h : AllocRun sb d s live) :
    live.Nodup ∧ ∀ c ctx, findOp c s.ops = some ctx →
      (cacheAlloc sb (some ctx) s.cache ≠ .error (.panic "operation numbers exceed limit") →
        (cacheAlloc sb (some ctx) s.cache = .error (.panic "cache_alloc: no free block") ↔
          ∀ b < sb.numBlocks.toNat, s.bit sb b = true) ∧
        ((∃ b < sb.numBlocks.toNat, s.bit sb b = false) →
          ∃ b r t, cacheAlloc sb (some ctx) s.cache = .ok (b, r, t) ∧ b < sb.numBlocks.toNat ∧
            s.bit sb b = false ∧ (∀ i < b, s.bit sb i = true) ∧ b ∉ live ∧
            Cache.BitChanged sb b true s.cache t)) ∧
      ∀ b < sb.numBlocks.toNat, ¬ Reserved sb b →
        cacheFree sb (some ctx) b s.cache ≠ .error (.panic "operation numbers exceed limit") →
        (cacheFree sb (some ctx) b s.cache =
            .error (.panic "cache_free: trying free a free block") ↔ s.bit sb b = false) ∧
        (s.bit sb b = true → ∃ r t, cacheFree sb (some ctx) b s.cache = .ok (r, t) ∧
          Cache.BitChanged sb b false s.cache t) := by
  have hinv := h.allocates hout hres
  refine ⟨hinv.nodup, ?_⟩
  intro c ctx _
  refine ⟨?_, ?_⟩
  · intro hlimit
    -- All blocks are in use, or the operation is at its limit, or the smallest free block is taken.
    rcases hinv.alloc_cases ctx with ⟨hall, herr⟩ | ⟨-, herr⟩ |
      ⟨b, r, t, hok, hb, hclear, hfirst, -, hchanged, -⟩
    · refine ⟨⟨fun _ => hall, fun _ => herr⟩, ?_⟩
      intro hfree
      obtain ⟨b, hb, hclear⟩ := hfree
      rw [hall b hb] at hclear
      cases hclear
    · exact absurd herr hlimit
    · refine ⟨⟨?_, ?_⟩, fun _ => ⟨b, r, t, hok, hb, hclear, hfirst, hinv.not_live hclear, hchanged⟩⟩
      · intro herr
        rw [hok] at herr
        cases herr
      · intro hall
        rw [hall b hb] at hclear
        cases hclear
  · intro b _ _ hlimit
    -- The block is free, or the operation is at its limit, or the bit is cleared.
    rcases hinv.idle.cacheFree_cases ctx b with ⟨hclear, herr⟩ | ⟨-, herr⟩ |
      ⟨hset, r, t, hok, -, hchanged, -⟩
    · refine ⟨⟨fun _ => hclear, fun _ => herr⟩, ?_⟩
      intro hset
      rw [Sys.bit, hclear] at hset
      cases hset
    · exact absurd herr hlimit
    · refine ⟨⟨?_, ?_⟩, fun _ => ⟨r, t, hok, hchanged⟩⟩
      · intro herr
        rw [hok] at herr
        cases herr
      · intro hclear
        rw [Sys.bit, hset] at hclear
        cases hclear

/-- On a full disk block 30 is freed, the commit is waited for, and the next `cache_alloc` finds it.
-/
theorem allocRun_bitmap_allocator_refills : ∃ s live ctx b r t,
    AllocRun (smallSuperBlock 20) fullDisk s live ∧ findOp 1 s.ops = some ctx ∧
    cacheAlloc (smallSuperBlock 20) (some ctx) s.cache = .ok (b, r, t) ∧
    (∀ i < b, s.bit (smallSuperBlock 20) i = true) ∧
    Cache.BitChanged (smallSuperBlock 20) b true s.cache t := by
  -- all bits are in one block, and recovery leaves it as it is
  have hfirst : ∀ i < (smallSuperBlock 20).numBlocks.toNat,
      bitmapBlock (smallSuperBlock 20) i = 110 := by
    intro i hi
    have hi : i < 1000 := hi
    show 110 + i / bitPerBlock = 110
    unfold bitPerBlock blockSize
    omega
  have hlog : ∀ m, BitmapBlock (smallSuperBlock 20) m → ¬ logArea (smallSuperBlock 20) m := by
    rintro m ⟨i, hi, rfl⟩
    rw [hfirst i hi]
    decide
  have hset : ∀ b < (smallSuperBlock 20).numBlocks.toNat,
      bitmapBit (smallSuperBlock 20) (initBcache (smallSuperBlock 20) fullDisk).device.disk b =
        true := by
    intro b hb
    have hheader : fullDisk (smallSuperBlock 20).logStart.toNat =
        (LogHeader.clear ⟨0, fun _ => 0⟩).toBlock := by
      funext k
      show (0 : UInt8) = leByte (if k.val / 8 = 0 then 0 else 0) (k.val % 8)
      simp [leByte]
    have hdisk : (initBcache (smallSuperBlock 20) fullDisk).device.disk 110 = fun _ => 255 := by
      rw [initBcache_of_clear hheader]
      rfl
    have hbyte : b % bitPerBlock / 8 < blockSize :=
      Nat.div_lt_of_lt_mul (Nat.mod_lt b (by decide))
    have hones : ∀ j < 8, Nat.testBit 255 j = true := by decide
    rw [bitmapBit, hfirst b hb, hdisk, BlockData.bit_eq_testBit, BlockData.byte_of_lt _ hbyte]
    exact hones _ (Nat.mod_lt _ (by decide))
  have hadmits : (Sys.init (smallSuperBlock 20) fullDisk).admits (smallSuperBlock 20) Sys.Legal
      (fun u => u.cache.header.numBlocks ≤ logCapacity (smallSuperBlock 20)) freeThenAlloc = true := by
    decide +kernel
  obtain ⟨s₁, hlegal₁, hstep₁, -, hadmits⟩ := Sys.admits_cons hadmits
  obtain ⟨s₂, hlegal₂, hstep₂, hcap₂, hadmits⟩ := Sys.admits_cons hadmits
  obtain ⟨s₃, hlegal₃, hstep₃, -, hadmits⟩ := Sys.admits_cons hadmits
  obtain ⟨s₄, hlegal₄, hstep₄, -, hadmits⟩ := Sys.admits_cons hadmits
  obtain ⟨s₅, -, hstep₅, -⟩ := Sys.admits_cons hadmits
  have hrun := ((((AllocRun.init).beginOp hlegal₁ hstep₁).free hlegal₂ (by decide)
    (by decide +kernel) hstep₂ hcap₂).endOp hlegal₃ hstep₃).beginOp hlegal₄ hstep₄
  obtain ⟨ctx, r, b, t, hc, halloc, -⟩ := step_alloc.mp hstep₅
  obtain ⟨-, hcalls⟩ := allocRun_bitmap_allocator (smallSuperBlock 20) fullDisk hlog
    (fun b hb _ => hset b hb) hrun
  obtain ⟨hpanic, hok⟩ := (hcalls 1 ctx hc).1 (by simp [halloc])
  have hfree : ∃ b < (smallSuperBlock 20).numBlocks.toNat,
      s₄.bit (smallSuperBlock 20) b = false := by
    by_contra hnone
    have hall := hpanic.mpr fun b hb => by
      by_contra hb'
      exact hnone ⟨b, hb, by simpa using hb'⟩
    rw [halloc] at hall
    cases hall
  obtain ⟨b', r', t', halloc', -, -, hfirst, -, hchanged⟩ := hok hfree
  exact ⟨s₄, _, ctx, b', r', t', hrun, hc, halloc', hfirst, hchanged⟩

end KernelAarch64.Fs
