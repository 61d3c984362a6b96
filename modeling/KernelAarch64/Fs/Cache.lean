import KernelAarch64.Core.Console
import KernelAarch64.Fs.CacheQueue
import KernelAarch64.Lib.Writes

/-!
# The block cache (`fs/cache.c`)

The static variables of `cache.c` and the ring of `cache_queue.c` are one record, `Cache`, that
every function takes and returns. All of them run under the spin lock `lock` from start to end, so
each is one step of the state; `cache_release` runs without it and touches only the block it
releases. A call that has to wait for a sleep lock is `Stop.wait`: it leaves the state to the others
and is tried again later. `cache_begin_op` would wait for log space, but its `sleep(&lock, &lock)`
takes `lock` a second time (`core/proc.c`), which panics.

The device keeps the trace of the writes made to it, which is where a power cut can fall.
-/

namespace KernelAarch64.Fs

open KernelAarch64.Lib

/-- `OP_MAX_NUM_BLOCKS` -/
abbrev opMaxNumBlocks : Nat := 10

/-- The block device: its content at power on and the writes made since. -/
structure Device where
  initial : Disk
  writes : List (Nat × BlockData)

namespace Device

/-- What the device holds now. -/
def disk (dev : Device) : Disk := applyWrites dev.initial dev.writes

/-- What the device held after the first `k` writes. -/
def diskAt (dev : Device) (k : Nat) : Disk := applyWrites dev.initial (dev.writes.take k)

/-- `device->read` -/
def read (dev : Device) (blockNo : Nat) : BlockData := dev.disk blockNo

/-- `device->write` -/
def write (dev : Device) (blockNo : Nat) (buffer : BlockData) : Device :=
  { dev with writes := dev.writes ++ [(blockNo, buffer)] }

end Device

/-- `OpContext`. Its `ts` is never used. -/
structure OpContext where
  opsCnt : Nat
  deriving Repr, DecidableEq

/-- The state of the block cache: the statics of `cache.c`, and the device under them. `blocks` are
the nodes behind `head`, the block that was inserted last at the front. -/
structure Cache where
  header : LogHeader
  outstanding : Nat
  endPending : Nat
  cachedNum : Nat
  blocks : List Block
  device : Device

namespace Cache

/-- An assignment through a `Block *`. -/
def setBlock (s : Cache) (b : Nat) (f : Block → Block) : Cache :=
  { s with blocks := setCache b f s.blocks }

/-- `device->write` -/
def deviceWrite (s : Cache) (b : Nat) (d : BlockData) : Cache :=
  { s with device := s.device.write b d }

end Cache

/-! ## Acquire and release -/

/-- The first half of `unsafe_cache_acquire`: find the block or read it in. A block that is read in
comes right behind `head` and counts in `cached_num`. -/
def loadBlock (b : Nat) (s : Cache) : Cache :=
  match getCache b s.blocks with
  | some _ => s
  | none =>
    { s with
      blocks := insertCache
        { initBlock with valid := true, blockNo := b, data := s.device.read b } s.blocks
      cachedNum := s.cachedNum + 1 }

/-- `if (get_num_cached_blocks() > EVICTION_THRESHOLD) scavenger();`, with the ring and `cached_num`
as `scavenger` leaves them. -/
def evict (s : Cache) : Cache :=
  if s.cachedNum > evictionThreshold then
    { s with
      blocks := (scavenger s.blocks s.cachedNum).1
      cachedNum := (scavenger s.blocks s.cachedNum).2 }
  else s

/-- A block whose sleep lock was just taken. -/
def Block.lock (blk : Block) : Block := { blk with locked := true, acquired := true }

/-- `unsafe_cache_acquire`. The value is the block the returned pointer points to.
(`cache_acquire` has no `return` of its own and hands on the result register of this call.) -/
def unsafeCacheAcquire (b : Nat) (s : Cache) : Except Stop (Block × Cache) :=
  let s := loadBlock b s
  match getCache b s.blocks with
  | none => .error .fault
  | some blk =>
    -- `acquire_sleeplock(&(blk->lock))`
    if blk.locked then .error .wait
    else .ok (blk.lock, evict (s.setBlock b Block.lock))

/-- `cache_acquire` -/
def cacheAcquire (b : Nat) (s : Cache) : Except Stop (Block × Cache) := unsafeCacheAcquire b s

/-- A block whose sleep lock was just given back. -/
def Block.unlock (blk : Block) : Block := { blk with locked := false, acquired := false }

/-- `cache_release`. The caller passes a pointer to a cached block, so a number that is not cached
is a fault. -/
def cacheRelease (b : Nat) (s : Cache) : Except Stop Cache :=
  match getCache b s.blocks with
  | none => .error .fault
  | some _ => .ok (s.setBlock b Block.unlock)

/-! ## Atomic operations -/

/-- `cache_begin_op`. While the log has no room for one more operation it calls `sleep(&lock,
&lock)`, and `sleep` begins with `acquire_spinlock(&lock)`, which its caller has. -/
def cacheBeginOp (sb : SuperBlock) (s : Cache) : Except Stop (OpContext × Cache) :=
  if (s.outstanding + 1) * opMaxNumBlocks + s.endPending > sb.numLogBlocks.toNat then
    .error (.panic "acquire: lock general lock for block cache already held\n")
  else
    .ok (⟨0⟩, { s with outstanding := s.outstanding + 1 })

/-- The search loop of `unsafe_cache_sync`: the index of `b` in the header, or `num_blocks`. -/
def LogHeader.find (h : LogHeader) (b : Nat) : Nat :=
  ((List.range h.numBlocks).find? fun i => h.blockNo i = b).getD h.numBlocks

/-- `block->pinned = true` -/
def Block.pin (blk : Block) : Block := { blk with pinned := true }

/-- `unsafe_cache_sync` and `cache_sync`; `none` is a `NULL` context, for which the block goes to
the device at once. The panic comes after the block is logged and pinned, as in the source. -/
def unsafeCacheSync (ctx : Option OpContext) (b : Nat) (s : Cache) :
    Except Stop (Option OpContext × Cache) :=
  match getCache b s.blocks with
  | none => .error .fault
  | some blk =>
    match ctx with
    | some c =>
      let fresh := s.header.find b = s.header.numBlocks
      let header := if fresh then s.header.push b else s.header
      let c : OpContext := if fresh then ⟨c.opsCnt + 1⟩ else c
      let s := { s with header := header }.setBlock b Block.pin
      if c.opsCnt > opMaxNumBlocks then .error (.panic "operation numbers exceed limit")
      else .ok (some c, s)
    | none => .ok (none, s.deviceWrite b blk.data)

/-- `read_header` -/
def readHeader (sb : SuperBlock) (s : Cache) : Cache :=
  { s with header := s.header.load (s.device.read sb.logStart.toNat) }

/-- `write_header` -/
def writeHeader (sb : SuperBlock) (s : Cache) : Cache :=
  s.deviceWrite sb.logStart.toNat s.header.toBlock

/-- One turn of the loop of `unsafe_crash_recover`: log slot `i` goes home. -/
def installCopy (sb : SuperBlock) (s : Cache) (i : Nat) : Cache :=
  s.deviceWrite (s.header.blockNo i) (s.device.read (sb.logStart.toNat + 1 + i))

/-- `unsafe_crash_recover`: the logged blocks of the header on the disk go home, and an empty header
is written. `commit` ends with it too, and `init_bcache` begins with it. -/
def unsafeCrashRecover (sb : SuperBlock) (s : Cache) : Cache :=
  let s := readHeader sb s
  let s := (List.range s.header.numBlocks).foldl (installCopy sb) s
  writeHeader sb { s with header := s.header.clear }

/-- `from->pinned = false` -/
def Block.unpin (blk : Block) : Block := { blk with pinned := false }

/-- One turn of the loop of `commit`: the `i`-th logged block goes to log slot `i` and is unpinned.
It is found in the ring, as a pinned block is never evicted. -/
def commitCopy (sb : SuperBlock) (s : Cache) (i : Nat) : Except Stop Cache :=
  match getCache (s.header.blockNo i) s.blocks with
  | none => .error .fault
  | some blk =>
    .ok ((s.deviceWrite (sb.logStart.toNat + 1 + i) blk.data).setBlock (s.header.blockNo i)
      Block.unpin)

/-- The loop of `commit`. -/
def commitLog (sb : SuperBlock) (s : Cache) : Except Stop Cache :=
  (List.range s.header.numBlocks).foldlM (commitCopy sb) s

/-- `commit` -/
def commit (sb : SuperBlock) (s : Cache) : Except Stop Cache := do
  let s ← commitLog sb s
  return unsafeCrashRecover sb (writeHeader sb s)

/-- `cache_end_op`. The last outstanding operation commits for all; an earlier one leaves what it
has logged in `end_pending` and returns. -/
def cacheEndOp (sb : SuperBlock) (c : OpContext) (s : Cache) : Except Stop Cache :=
  if s.outstanding = 1 then do
    let s ← commit sb s
    return { s with endPending := 0, outstanding := s.outstanding - 1 }
  else
    .ok { s with endPending := s.endPending + c.opsCnt, outstanding := s.outstanding - 1 }

/-! ## The disk bitmap -/

/-- An assignment to `block->data`. -/
def Block.setData (d : BlockData) (blk : Block) : Block := { blk with data := d }

/-- The inner loop of `cache_alloc`: the first clear bit of a bitmap block among its first `n`. -/
def findClear (d : BlockData) (n : Nat) : Option Nat :=
  (List.range n).find? fun j => d.bit j = false

/-- The outer loop of `cache_alloc` from bitmap block `k` on, with `n` bitmap blocks to go. -/
def cacheAllocFrom (sb : SuperBlock) (ctx : Option OpContext) :
    Nat → Nat → Cache → Except Stop (Nat × Option OpContext × Cache)
  | 0, _, _ => .error (.panic "cache_alloc: no free block")
  | n + 1, k, s => do
    let b := sb.bitmapStart.toNat + k
    let (block, s) ← unsafeCacheAcquire b s
    match findClear block.data (min bitPerBlock (sb.numBlocks.toNat - k * bitPerBlock)) with
    | some j =>
      let blockNo := k * bitPerBlock + j
      let (ctx, s) ← unsafeCacheSync ctx b (s.setBlock b (Block.setData (block.data.setBit j)))
      let s ← cacheRelease b s
      return (blockNo, ctx, s.deviceWrite blockNo .zero)
    | none =>
      let s ← cacheRelease b s
      cacheAllocFrom sb ctx n (k + 1) s

/-- `cache_alloc` -/
def cacheAlloc (sb : SuperBlock) (ctx : Option OpContext) (s : Cache) :
    Except Stop (Nat × Option OpContext × Cache) :=
  cacheAllocFrom sb ctx ((sb.numBlocks.toNat + (bitPerBlock - 1)) / bitPerBlock) 0 s

/-- `cache_free`: clears the bit of the block in the bitmap, through the cache. The block itself is
left alone, in the cache and on the device. -/
def cacheFree (sb : SuperBlock) (ctx : Option OpContext) (blockNo : Nat) (s : Cache) :
    Except Stop (Option OpContext × Cache) := do
  let b := sb.bitmapStart.toNat + blockNo / bitPerBlock
  let (block, s) ← unsafeCacheAcquire b s
  if block.data.bit (blockNo % bitPerBlock) = false then
    .error (.panic "cache_free: trying free a free block")
  else
    let (ctx, s) ← unsafeCacheSync ctx b
      (s.setBlock b (Block.setData (block.data.clearBit (blockNo % bitPerBlock))))
    let s ← cacheRelease b s
    return (ctx, s)

/-- `init_bcache` on a device with content `disk`: an empty ring, no operation, and the recovery of
what the log holds. -/
def initBcache (sb : SuperBlock) (disk : Disk) : Cache :=
  unsafeCrashRecover sb
    { header := ⟨0, fun _ => 0⟩
      outstanding := 0
      endPending := 0
      cachedNum := 0
      blocks := []
      device := ⟨disk, []⟩ }

end KernelAarch64.Fs
