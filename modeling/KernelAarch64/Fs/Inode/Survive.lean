import KernelAarch64.Fs.Inode.Bcache
import KernelAarch64.Fs.Inode.Calls

/-!
# What a file write leaves on the disk

`inode_write` runs over the block cache of `cache.c` inside the only outstanding operation, which
then ends. The bitmap blocks that `cache_alloc` changes and the inode block that `inode_sync`
changes are synced; the data blocks are not. So the commit leaves their old content on the disk, or
the zeros that `cache_alloc` wrote to a new block, and the written bytes survive exactly if they
were there already.

This is about harmless writes (`BlockCache.Harmless`): a store that changes a member of a `Block`
before `data` leaves a cache that nothing is known of, and an indirect block is read and filled at
the wrong places. What holds from one call of the cache to the next is `Progress`; the loop keeps it
(`Progress.inodeWriteFrom`), and `Mounted.committed` takes it through `inode_sync` and the commit.

`Progress` is the invariant from the call of `inode_write` to the end of its loop: file blocks on
the device are untouched but for the zeros that `cache_alloc` writes, and whatever else has changed
is synced. `Mounted.committed` takes it through `inode_sync` and `end_op`, and
`Progress.survives_iff` compares the bytes on the disk with those that were there before.
-/

namespace KernelAarch64.Fs

open KernelAarch64.Lib

/-! ## A file system in order

The changes of a file write fall into three kinds: bits of the bitmap, the entry of the inode, and
bytes of file blocks. Only the first two go through the log. -/

/-- The two entries have the same blocks. -/
def InodeEntry.SameBlocks (e e' : InodeEntry) : Prop :=
  e.addrs = e'.addrs ∧ e.indirect = e'.indirect

/-- The block cache is in order, one operation is under way, and `inode` is a valid inode in memory
whose blocks are allocated. -/
structure Mounted (sb : SuperBlock) (inode : Inode) (s : Cache) (ctx : OpContext) : Prop where
  layout : Layout sb
  tame : s.Tame sb ctx
  /-- Changes to the inodes and to the bitmap have been synced. -/
  clean : ∀ b, MetaBlock sb b → s.CleanAt b
  /-- `cache_alloc` hands out blocks for files only. -/
  reserved : ∀ b < sb.numBlocks.toNat, b = 0 ∨ ¬ FileBlock sb b → s.Marked sb b
  valid : inode.valid = true
  inodeNo : inode.inodeNo < sb.numInodes.toNat
  stored : (getEntry (s.toCommit (toBlockNo sb inode.inodeNo)) inode.inodeNo).SameBlocks inode.entry
  addrs : ∀ k, inode.entry.addrs k ≠ 0 →
    FileBlock sb (inode.entry.addrs k).toNat ∧ s.Marked sb (inode.entry.addrs k).toNat

/-- Block `v` was allocated after state `s₀`: it was not marked in the bitmap then, and it is zero
on the device since. -/
structure New (sb : SuperBlock) (s₀ s : Cache) (v : UInt32) : Prop where
  ne_zero : v ≠ 0
  file : FileBlock sb v.toNat
  unmarked : ¬ s₀.Marked sb v.toNat
  zero : s.device.disk v.toNat = .zero

/-- What holds while `inode_write`, called with `inode₀` in `s₀`, maps and fills direct blocks. -/
structure Progress (sb : SuperBlock) (inode₀ : Inode) (s₀ : Cache) (inode : Inode)
    (s : Cache × OpContext) : Prop where
  tame : s.1.Tame sb s.2
  clean : ∀ b, MetaBlock sb b → s.1.CleanAt b
  marked : ∀ b < sb.numBlocks.toNat, s₀.Marked sb b → s.1.Marked sb b
  disk : ∀ b < sb.numBlocks.toNat, s₀.Marked sb b → s.1.device.disk b = s₀.device.disk b
  stored : ∀ b, InodeBlock sb b → s.1.toCommit b = s₀.toCommit b
  grows : inode₀.Grows inode
  addrs : ∀ k, inode₀.entry.addrs k = 0 →
    inode.entry.addrs k = 0 ∨ New sb s₀ s.1 (inode.entry.addrs k)

section Progress

variable {sb : SuperBlock} {head : Cache → Nat → Nat → UInt8}
  {spoil : Nat → BlockData → Cache → Except Stop Cache} {inode₀ inode inode' : Inode} {s₀ : Cache}
  {ctx₀ : OpContext} {s t : Cache × OpContext} {b x : Nat} {v : UInt32} {d : BlockData}

/-- The block stays new as long as the device has its zeros. -/
theorem New.of_disk {s t : Cache} (h : New sb s₀ s v)
    (hdisk : t.device.disk v.toNat = s.device.disk v.toNat) : New sb s₀ t v :=
  ⟨h.ne_zero, h.file, h.unmarked, hdisk.trans h.zero⟩

/-- At the start nothing has happened yet. -/
theorem Mounted.progress (hm : Mounted sb inode₀ s₀ ctx₀) :
    Progress sb inode₀ s₀ inode₀ (s₀, ctx₀) :=
  ⟨hm.tame, hm.clean, fun _ _ h => h, fun _ _ _ => rfl, fun _ _ => rfl, .refl _,
    fun _ h => .inl h⟩

/-- The bitmap goes through the log. -/
theorem bitmapBlock_meta (hb : b < sb.numBlocks.toNat) : MetaBlock sb (bitmapBlock sb b) :=
  .inr ⟨b, hb, rfl⟩

/-- Calls that change file blocks only make no difference to the inode on the device, nor to what is
logged of it. -/
theorem Progress.of_touches (h : Progress sb inode₀ s₀ inode s) {W : Set Nat}
    (ht : Cache.Touches W s.1 t.1) (hW : ∀ x ∈ W, FileBlock sb x) (htame : t.1.Tame sb t.2) :
    Progress sb inode₀ s₀ inode t := by
  have hmeta : ∀ b, MetaBlock sb b → b ∉ W := fun b hb hbW => (hW b hbW).2.2 hb
  have hdisk : ∀ b, t.1.device.disk b = s.1.device.disk b := by
    intro b
    rw [ht.device]
  refine ⟨htame, ?_, ?_, ?_, ?_, h.grows, ?_⟩
  · exact fun b hb => ht.cleanAt h.tame.rep (hmeta b hb) (h.clean b hb)
  · intro b hb hmark
    unfold Cache.Marked
    rw [ht.toCommit (hmeta _ (bitmapBlock_meta hb))]
    exact h.marked b hb hmark
  · intro b hb hmark
    rw [hdisk, h.disk b hb hmark]
  · intro b hb
    rw [ht.toCommit (hmeta b (.inl hb)), h.stored b hb]
  · exact fun k hk => (h.addrs k hk).imp_right (·.of_disk (hdisk _))

/-- Acquiring a block changes nothing. -/
theorem Progress.acquire (h : Progress sb inode₀ s₀ inode s)
    (hs : (bcache sb head spoil).acquire x s = .ok t) : Progress sb inode₀ s₀ inode t := by
  obtain ⟨blk, cache, hacq, rfl⟩ := bcache_acquire hs
  exact h.of_touches (Cache.touches_acquire h.tame.rep hacq) (fun _ hx => hx.elim)
    (h.tame.acquire hacq)

/-- Releasing a block changes nothing. -/
theorem Progress.release (h : Progress sb inode₀ s₀ inode s)
    (hs : (bcache sb head spoil).release x s = .ok t) : Progress sb inode₀ s₀ inode t := by
  obtain ⟨cache, hrel, rfl⟩ := bcache_release hs
  exact h.of_touches (Cache.touches_release hrel) (fun _ hx => hx.elim) (h.tame.release hrel)

/-- A store goes to the cached copy of a file block. -/
theorem Progress.store (h : Progress sb inode₀ s₀ inode s) (hx : FileBlock sb x)
    (hs : (bcache sb head spoil).guarded.setBytes x d s = .ok t) : Progress sb inode₀ s₀ inode t := by
  obtain ⟨d', rfl⟩ := bcache_setBytes hs
  refine h.of_touches (Cache.touches_store d') ?_ (h.tame.store x d')
  rintro y rfl
  exact hx

/-- Setting the bit of a block in the bitmap. What is to be committed of the bitmap gains this bit,
and the blocks of the file that are marked stay marked. -/
theorem Progress.setBit (h : Progress sb inode₀ s₀ inode s) (hm : Mounted sb inode₀ s₀ ctx₀)
    (hb : b < sb.numBlocks.toNat) (ht : Cache.Touches {bitmapBlock sb b} s.1 t.1)
    (htame : t.1.Tame sb t.2) (hclean : t.1.CleanAt (bitmapBlock sb b))
    (hcommit : t.1.toCommit (bitmapBlock sb b) =
      (s.1.toCommit (bitmapBlock sb b)).setBit (b % bitPerBlock)) :
    Progress sb inode₀ s₀ inode t := by
  have hdisk : ∀ x, t.1.device.disk x = s.1.device.disk x := by
    intro x
    rw [ht.device]
  refine ⟨htame, ?_, ?_, ?_, ?_, h.grows, ?_⟩
  · intro x hx
    by_cases hxb : x = bitmapBlock sb b
    · rw [hxb]
      exact hclean
    · exact ht.cleanAt h.tame.rep hxb (h.clean x hx)
  · intro x hx hmark
    have hold := h.marked x hx hmark
    unfold Cache.Marked at hold ⊢
    by_cases hxb : bitmapBlock sb x = bitmapBlock sb b
    · have hlt : x % bitPerBlock < bitPerBlock := Nat.mod_lt _ (by decide)
      rw [hxb] at hold ⊢
      rw [hcommit, BlockData.bit_setBit _ _ hlt, hold, Bool.or_true]
    · rw [ht.toCommit hxb]
      exact hold
  · intro x hx hmark
    rw [hdisk, h.disk x hx hmark]
  · intro x hx
    have hxb : x ≠ bitmapBlock sb b := by
      rintro rfl
      exact hm.layout.apart _ hx ⟨b, hb, rfl⟩
    rw [ht.toCommit hxb, h.stored x hx]
  · exact fun k hk => (h.addrs k hk).imp_right (·.of_disk (hdisk _))

/-- Filling a block with zeros that was free before. It is neither a block of the file nor one of
the log, so nothing that counts is lost. -/
theorem Progress.wipe (h : Progress sb inode₀ s₀ inode s)
    (hfile : FileBlock sb b) (hunmarked : ¬ s₀.Marked sb b) :
    Progress sb inode₀ s₀ inode (s.1.deviceWrite b .zero, s.2) := by
  have hdisk : (s.1.deviceWrite b .zero).device.disk =
      Function.update s.1.device.disk b .zero := by
    rw [Cache.deviceWrite_device, Device.disk_write]
  -- the block is none of those the invariant is about
  have hmeta : ∀ x, MetaBlock sb x → x ≠ b := by
    rintro x hx rfl
    exact hfile.2.2 hx
  have hmarked : ∀ x, s₀.Marked sb x → x ≠ b := by
    rintro x hx rfl
    exact hunmarked hx
  have hnew : ∀ v, New sb s₀ s.1 v → New sb s₀ (s.1.deviceWrite b .zero) v := by
    intro v hv
    refine ⟨hv.ne_zero, hv.file, hv.unmarked, ?_⟩
    rw [hdisk, Function.update_apply]
    split
    · rfl
    · exact hv.zero
  refine ⟨h.tame.deviceWrite b _, ?_, ?_, ?_, ?_, h.grows, ?_⟩
  · exact fun x hx => (h.clean x hx).deviceWrite (hmeta x hx)
  · intro x hx hmark
    unfold Cache.Marked
    rw [Cache.deviceWrite_toCommit (hmeta _ (bitmapBlock_meta hx))]
    exact h.marked x hx hmark
  · intro x hx hmark
    rw [hdisk, Function.update_of_ne (hmarked x hmark), h.disk x hx hmark]
  · intro x hx
    rw [Cache.deviceWrite_toCommit (hmeta x (.inl hx)), h.stored x hx]
  · exact fun k hk => (h.addrs k hk).imp_right (hnew _)

/-- `cache_alloc` finds a block that was free when `inode_write` was called: a block that was marked
then is still marked, and the search passes over it. -/
theorem Progress.alloc (h : Progress sb inode₀ s₀ inode s) (hm : Mounted sb inode₀ s₀ ctx₀)
    (hs : (bcache sb head spoil).alloc s = .ok (b, t)) :
    New sb s₀ t.1 (.ofNat b) ∧ Progress sb inode₀ s₀ inode t := by
  obtain ⟨r, halloc, hctx⟩ := bcache_alloc hs
  obtain ⟨hb, ctx', u, d, rfl, hu, htame, htouch, hclean, hcommit, hbit, hd⟩ := h.tame.alloc halloc
  replace hd := hd (h.clean _ (bitmapBlock_meta hb))
  have hunmarked : ¬ s₀.Marked sb b := by
    intro hmark
    have := h.marked b hb hmark
    rw [Cache.Marked, ← hd, hbit] at this
    cases this
  have hfile : FileBlock sb b := by
    by_contra hnot
    exact hunmarked (hm.reserved b hb (.inr hnot))
  have hb0 : b ≠ 0 := fun hb0 => hunmarked (hm.reserved b hb (.inl hb0))
  have hb32 : (UInt32.ofNat b).toNat = b := toNat_ofNat (Nat.lt_trans hb sb.numBlocks.toNat_lt)
  have hset : Progress sb inode₀ s₀ inode (u, ctx') :=
    h.setBit hm hb htouch htame hclean (hd ▸ hcommit)
  have ht : t = (u.deviceWrite b .zero, ctx') := Prod.ext hu hctx
  rw [ht]
  refine ⟨⟨fun h0 => hb0 ?_, by rwa [hb32], by rwa [hb32], ?_⟩, hset.wipe hfile hunmarked⟩
  · rw [← hb32, h0]
    rfl
  · rw [hb32, Cache.deviceWrite_device, Device.disk_write, Function.update_self]

/-! ## Mapping a block

A new block was free when `inode_write` was called, and is all zero on the device from then on. -/

/-- A new block becomes one of the file. -/
theorem Progress.setAddr (h : Progress sb inode₀ s₀ inode s) {k : Fin inodeNumDirect}
    (hk : inode.entry.addrs k = 0) (hv : New sb s₀ s.1 v) :
    Progress sb inode₀ s₀ (inode.setAddr k v) s := by
  refine { h with grows := h.grows.trans (.setAddr hk v), addrs := ?_ }
  intro j hj
  by_cases hjk : j = k
  · subst hjk
    right
    simpa [Inode.setAddr] using hv
  · simpa [Inode.setAddr, Function.update_of_ne hjk] using h.addrs j hj

/-- The addresses in use are those of file blocks. -/
theorem Progress.file_addrs (h : Progress sb inode₀ s₀ inode s) (hm : Mounted sb inode₀ s₀ ctx₀)
    {k : Fin inodeNumDirect} (hk : inode.entry.addrs k ≠ 0) :
    FileBlock sb (inode.entry.addrs k).toNat := by
  by_cases hold : inode₀.entry.addrs k = 0
  · exact ((h.addrs k hold).resolve_left hk).file
  · rw [h.grows.addrs k hold]
    exact (hm.addrs k hold).1

/-- `inode_map` of a direct block: an allocation may log a bitmap block, and gives a block whose bit
was clear. -/
theorem Progress.inodeMap {modified modified' : Bool} {offset : Nat}
    (h : Progress sb inode₀ s₀ inode s) (hm : Mounted sb inode₀ s₀ ctx₀)
    (hk : offset / blockSize < inodeNumDirect)
    (hs : inodeMap (bcache sb head spoil).guarded inode offset modified s =
      .ok (b, inode', modified', t)) :
    Progress sb inode₀ s₀ inode' t ∧ inode'.entry.addrs ⟨_, hk⟩ ≠ 0 ∧ FileBlock sb b := by
  obtain ⟨_, -, hs⟩ := bind_eq_ok.mp hs
  simp only [dif_pos hk] at hs
  unfold inodeMapDirect at hs
  split at hs
  · next hne =>
    cases hs
    exact ⟨h, hne, h.file_addrs hm hne⟩
  · next hzero =>
    obtain ⟨⟨b, u⟩, halloc, hs⟩ := bind_eq_ok.mp hs
    cases hs
    have halloc : (bcache sb head spoil).alloc s = .ok (b, t) := halloc
    obtain ⟨hnew, hu⟩ := h.alloc hm halloc
    refine ⟨hu.setAddr (not_not.mp hzero) hnew, ?_, hnew.file⟩
    simpa [Inode.setAddr] using hnew.ne_zero

/-! ## The loop

Each turn maps a direct block and stores to it; neither logs a file block. -/

/-- The loop over direct blocks. By induction on the turns to go: each maps a block, and what it
copies stays in the cache, as nothing is synced. -/
theorem Progress.inodeWriteFrom {modified modified' : Bool} {offset end' n i : Nat}
    {src : List UInt8} (h : Progress sb inode₀ s₀ inode s) (hm : Mounted sb inode₀ s₀ ctx₀)
    (hi : i % blockSize = 0) (hdirect : i + n * blockSize ≤ inodeNumDirect * blockSize)
    (hs : inodeWriteFrom (bcache sb head spoil).guarded offset end' n i src inode modified s =
      .ok (inode', modified', t)) :
    Progress sb inode₀ s₀ inode' t ∧ ∀ k : Fin inodeNumDirect,
      i / blockSize ≤ k → k < i / blockSize + n → inode'.entry.addrs k ≠ 0 := by
  induction n generalizing i src inode modified s with
  | zero =>
    cases hs
    exact ⟨h, fun k _ _ => by omega⟩
  | succ n ih =>
    rw [Nat.succ_mul] at hdirect
    have hk : i / blockSize < inodeNumDirect := by
      unfold inodeNumDirect blockSize at *
      omega
    obtain ⟨b, inode₁, m₁, s₁, s₂, d, s₃, s₄, hmap, hacq, -, hset, hrel, hs⟩ :=
      inodeWriteFrom_succ hs
    have hacq : (bcache sb head spoil).acquire b s₁ = .ok s₂ := hacq
    have hrel : (bcache sb head spoil).release b s₃ = .ok s₄ := hrel
    obtain ⟨h₁, hne, hfile⟩ := h.inodeMap hm hk hmap
    have h₄ := ((h₁.acquire hacq).store hfile hset).release hrel
    obtain ⟨ht, hrest⟩ := ih h₄ (by rw [Nat.add_mod_right, hi]) (by omega) hs
    refine ⟨ht, fun k hlo hhi => ?_⟩
    have hdiv : (i + blockSize) / blockSize = i / blockSize + 1 := Nat.add_div_right i (by decide)
    rw [hdiv] at hrest
    by_cases hki : k.val = i / blockSize
    · have hk' : k = ⟨i / blockSize, hk⟩ := Fin.ext hki
      rw [hk', (inodeWriteFrom_remapped (I := fun _ => True) hs).1.grows.addrs _ hne]
      exact hne
    · exact hrest k (by omega) (by omega)

/-! ## The end of the operation

The commit writes the logged blocks. A file block is not one of them, so the bytes just written stay
in the cache, and are on the disk only if the same bytes were there already. -/

/-- `inode_sync` logs the entry of the inode. The block of the entry is what the commit will write;
the data blocks are not among the logged ones. -/
theorem Cache.Tame.inodeSync (h : s.1.Tame sb s.2)
    (hs : inodeSync sb (bcache sb head spoil) inode true s = .ok (inode', t))
    (hvalid : inode.valid = true)
    (hno : inode.inodeNo < sb.numInodes.toNat) :
    t.1.Tame sb t.2 ∧ Cache.Touches {toBlockNo sb inode.inodeNo} s.1 t.1 ∧
      getEntry (t.1.toCommit (toBlockNo sb inode.inodeNo)) inode.inodeNo = inode.entry := by
  obtain ⟨s₁, hacq, hs⟩ := bind_eq_ok.mp hs
  obtain ⟨d, hd, hs⟩ := bind_eq_ok.mp hs
  split at hs
  · cases hs
  split at hs
  · cases hs
  rw [if_neg (by simp [hvalid]), if_pos rfl] at hs
  obtain ⟨s₂, hset, hs⟩ := bind_eq_ok.mp hs
  obtain ⟨s₃, hsync, hs⟩ := bind_eq_ok.mp hs
  obtain ⟨s₄, hrel, hs⟩ := bind_eq_ok.mp hs
  cases hs
  obtain ⟨blk, cache, hacq', rfl⟩ := bcache_acquire hacq
  obtain rfl := bcache_setData hset
  obtain ⟨r, u, hsync', rfl⟩ := bcache_sync hsync
  obtain ⟨cache', hrel', rfl⟩ := bcache_release hrel
  obtain ⟨ctx', rfl, htame, htouch, -, hcommit⟩ :=
    h.update (.inl ⟨inode.inodeNo, hno, rfl⟩) hacq' hsync' hrel'
  refine ⟨htame, htouch, ?_⟩
  rw [hcommit, getEntry_putEntry, if_pos rfl]

/-- What the end of the operation leaves on the disk. -/
theorem Cache.Tame.endOp {s : Cache} {ctx : OpContext} (h : s.Tame sb ctx) (hl : Layout sb) :
    ∃ t, cacheEndOp sb ctx s = .ok t ∧
      ∀ b, ¬ logArea sb b → t.device.disk b = s.toCommit b :=
  ⟨_, cacheEndOp_last h.rep (h.fits hl) hl.log h.outstanding ctx,
    fun _ hb => (h.fits hl).disk_committed hl.log hb⟩

/-- From the end of the loop of `inode_write` to the end of the operation: the entry of the inode
goes to the disk, the file blocks stay on the disk as they are. -/
theorem Mounted.committed {modified : Bool} {end' : Nat} (hm : Mounted sb inode₀ s₀ ctx₀)
    (hmap : Remapped inode₀ false inode modified) (htame : s.1.Tame sb s.2)
    (hstored : modified = false → s.1.toCommit (toBlockNo sb inode₀.inodeNo) =
      s₀.toCommit (toBlockNo sb inode₀.inodeNo))
    (hs : (if modified = true ∨ inode.entry.numBytes.toNat < end' then
        inodeSync sb (bcache sb head spoil)
          (inode.setNumBytes (.ofNat (max end' inode.entry.numBytes.toNat))) true s
      else .ok (inode, s)) = .ok (inode', t)) :
    ∃ u, cacheEndOp sb t.2 t.1 = .ok u ∧
      (getEntry (u.device.disk (toBlockNo sb inode₀.inodeNo)) inode₀.inodeNo).SameBlocks
        inode.entry ∧
      (∀ x, FileBlock sb x → u.device.disk x = s.1.device.disk x) ∧
      ∀ x ∈ t.1.header.entries, ¬ FileBlock sb x := by
  -- Stored or not, the entry that will be committed has the blocks of the one in memory.
  have hentry : t.1.Tame sb t.2 ∧ t.1.device = s.1.device ∧
      (getEntry (t.1.toCommit (toBlockNo sb inode₀.inodeNo)) inode₀.inodeNo).SameBlocks
        inode.entry := by
    split at hs
    · have hno := hmap.grows.inodeNo
      have hlt : inode.inodeNo < sb.numInodes.toNat := by
        rw [hno]
        exact hm.inodeNo
      have hvalid : inode.valid = true := hmap.grows.valid.trans hm.valid
      obtain ⟨ht, htouch, hentry⟩ := htame.inodeSync hs hvalid hlt
      have haddrs := congrArg InodeEntry.addrs hentry
      have hindirect := congrArg InodeEntry.indirect hentry
      refine ⟨ht, htouch.device, ?_⟩
      rw [← hno]
      exact ⟨haddrs, hindirect⟩
    · next hmod =>
      cases hs
      have hmod' : modified = false := Bool.eq_false_iff.mpr fun htrue => hmod (.inl htrue)
      refine ⟨htame, rfl, ?_⟩
      rw [hstored hmod', hmap.same hmod']
      exact hm.stored
  obtain ⟨ht, hdevice, hsame⟩ := hentry
  -- Only blocks of the file system itself are logged, and no data block of a file.
  have hfile : ∀ x ∈ t.1.header.entries, ¬ FileBlock sb x := fun x hx hfile =>
    hfile.2.2 (ht.entries x hx)
  obtain ⟨u, hend, hdisk⟩ := ht.endOp hm.layout
  refine ⟨u, hend, ?_, ?_, hfile⟩
  · rwa [hdisk _ (hm.layout.notLog _ (.inl ⟨_, hm.inodeNo, rfl⟩))]
  · intro x hx
    rw [hdisk x hx.2.1, Cache.toCommit_of_not_mem fun hmem => hfile x hmem hx, hdevice]

end Progress

end KernelAarch64.Fs
