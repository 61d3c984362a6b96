import KernelAarch64.Core.Console
import KernelAarch64.Fs.InodeEntry

/-!
# Inodes (`fs/inode.c`)

The inode layer reaches blocks through `const BlockCache *cache`, a struct of functions, and so does
the model: every function takes a `BlockCache`, whose state `σ` it passes on. The operation context
`ctx` that callers hand down to the cache is part of that state. A `Block *` is the number of its
block.

Two views of a cached block occur in the source. `get_entry` uses `block->data`. The other functions
cast the pointer itself (`(u8 *)block`, `(u32 *)block`, `(IndirectBlock *)block`). `BlockCache` has
both: `data` and `bytes`.
-/

namespace KernelAarch64.Fs

/-- `struct BlockCache`, as the inode layer uses it, over any state `σ`. A context is part of the
state; a pointer to a block is its number, and the assignments through it are fields of their own.
-/
structure BlockCache (σ : Type) where
  acquire : Nat → σ → Except Stop σ
  release : Nat → σ → Except Stop σ
  sync : Nat → σ → Except Stop σ
  alloc : σ → Except Stop (Nat × σ)
  free : Nat → σ → Except Stop σ
  /-- What `block->data` holds. -/
  data : Nat → σ → Except Stop BlockData
  setData : Nat → BlockData → σ → Except Stop σ
  /-- The `BLOCK_SIZE` bytes at `(u8 *)block`. -/
  bytes : Nat → σ → Except Stop BlockData
  setBytes : Nat → BlockData → σ → Except Stop σ

/-- `Inode`. The list node, the reference count and the lock are not used by the functions here. -/
structure Inode where
  inodeNo : Nat
  valid : Bool
  entry : InodeEntry

/-- `to_block_no` -/
def toBlockNo (sb : SuperBlock) (inodeNo : Nat) : Nat :=
  sb.inodeStart.toNat + inodeNo / inodePerBlock

variable {σ : Type}

/-! ## Allocation and synchronization of entries -/

/-- The inner loop of `inode_alloc`: the first free inode of the block that starts at inode `i`. -/
def findFreeInode (sb : SuperBlock) (d : BlockData) (i : Nat) : Option Nat :=
  ((List.range inodePerBlock).find? fun j =>
    i + j > 1 ∧ i + j < sb.numInodes.toNat ∧ (getEntry d (i + j)).type = inodeInvalid).map (i + ·)

/-- The outer loop of `inode_alloc` from inode `i` on, with `n` blocks to go: the first free inode
of the block is taken, or the block is released and the next one is looked at. -/
def inodeAllocFrom (sb : SuperBlock) (cache : BlockCache σ) (type : UInt16) :
    Nat → Nat → σ → Except Stop (Nat × σ)
  | 0, _, _ => .error (.panic "failed to allocate inode on disk")
  | n + 1, i, s => do
    let b := toBlockNo sb i
    let s ← cache.acquire b s
    let d ← cache.data b s
    match findFreeInode sb d i with
    | some inodeNo =>
      let s ← cache.setData b (putEntry d inodeNo { InodeEntry.zero with type := type }) s
      let s ← cache.sync b s
      let s ← cache.release b s
      return (inodeNo, s)
    | none =>
      let s ← cache.release b s
      inodeAllocFrom sb cache type n (i + inodePerBlock) s

/-- `inode_alloc`: the number of an inode whose entry on the disk was invalid. Its entry is all zero
afterwards but for the type. -/
def inodeAlloc (sb : SuperBlock) (cache : BlockCache σ) (type : UInt16) (s : σ) :
    Except Stop (Nat × σ) := do
  kassert (type ≠ inodeInvalid) "type != INODE_INVALID"
  inodeAllocFrom sb cache type ((sb.numInodes.toNat + (inodePerBlock - 1)) / inodePerBlock) 0 s

/-- `inode_sync`. An inode that is not valid is loaded from the disk, whatever `do_write` says; a
valid one is stored if `do_write` is set, and otherwise nothing happens. -/
def inodeSync (sb : SuperBlock) (cache : BlockCache σ) (inode : Inode) (doWrite : Bool) (s : σ) :
    Except Stop (Inode × σ) := do
  let b := toBlockNo sb inode.inodeNo
  let s ← cache.acquire b s
  let d ← cache.data b s
  if inode.inodeNo = 0 ∨ sb.numInodes.toNat ≤ inode.inodeNo then
    .error (.panic "inode_sync : inode_number <= 0 or inode_number >= MAX_num_inodes.\n")
  else if (getEntry d inode.inodeNo).type = inodeInvalid then
    .error (.panic "inode_sync : trying to synchronize unvalid inode on disk.\n")
  else if inode.valid = false then
    let s ← cache.release b s
    return ({ inode with entry := getEntry d inode.inodeNo, valid := true }, s)
  else if doWrite then
    let s ← cache.setData b (putEntry d inode.inodeNo inode.entry) s
    let s ← cache.sync b s
    let s ← cache.release b s
    return (inode, s)
  else
    let s ← cache.release b s
    return (inode, s)

/-- The branch of `inode_get` for an inode that is not in memory: a fresh `Inode` (whatever
`entry` its memory holds) loads its entry. -/
def inodeLoad (sb : SuperBlock) (cache : BlockCache σ) (inodeNo : Nat) (entry : InodeEntry)
    (s : σ) : Except Stop (Inode × σ) := do
  kassert (inodeNo > 0) "inode_no > 0"
  kassert (inodeNo < sb.numInodes.toNat) "inode_no < sblock->num_inodes"
  let (inode, s) ← inodeSync sb cache ⟨inodeNo, false, entry⟩ false s
  -- the root directory
  if inodeNo = 1 then return ({ inode with entry := { inode.entry with type := 1 } }, s)
  else return (inode, s)

/-! ## Truncation -/

/-- `inode->entry.addrs[i] = v` -/
def Inode.setAddr (inode : Inode) (i : Fin inodeNumDirect) (v : UInt32) : Inode :=
  { inode with entry := { inode.entry with addrs := Function.update inode.entry.addrs i v } }

/-- `inode->entry.indirect = v` -/
def Inode.setIndirect (inode : Inode) (v : UInt32) : Inode :=
  { inode with entry := { inode.entry with indirect := v } }

/-- `inode->entry.num_bytes = v` -/
def Inode.setNumBytes (inode : Inode) (v : UInt16) : Inode :=
  { inode with entry := { inode.entry with numBytes := v } }

/-- One turn of the first loop of `inode_clear`. The address is cleared whether or not the inode is
valid; the block is freed only if it is. -/
def clearDirect (cache : BlockCache σ) (st : Inode × σ) (i : Fin inodeNumDirect) :
    Except Stop (Inode × σ) := do
  let (inode, s) := st
  if inode.entry.addrs i ≠ 0 then
    let s ← if inode.valid then cache.free (inode.entry.addrs i).toNat s else pure s
    return (inode.setAddr i 0, s)
  else return (inode, s)

/-- One turn of the second loop of `inode_clear`; `b` is the indirect block. -/
def clearIndirect (cache : BlockCache σ) (b : Nat) (s : σ) (i : Nat) : Except Stop σ := do
  let d ← cache.bytes b s
  if d.u32 i ≠ 0 then cache.free (d.u32 i).toNat s else return s

/-- The part of `inode_clear` that frees the indirect block and the blocks in it. The loop runs over
all of its elements and skips those that are zero. -/
def freeIndirect (cache : BlockCache σ) (inode : Inode) (s : σ) : Except Stop σ := do
  if inode.entry.indirect ≠ 0 ∧ inode.valid = true then
    let b := inode.entry.indirect.toNat
    let s ← cache.acquire b s
    let s ← (List.range inodeNumIndirect).foldlM (clearIndirect cache b) s
    let s ← cache.release b s
    cache.free b s
  else return s

/-- `inode_clear`: the direct blocks, then those of the indirect block, then an empty entry of the
same type and with the same links is stored. -/
def inodeClear (sb : SuperBlock) (cache : BlockCache σ) (inode : Inode) (s : σ) :
    Except Stop (Inode × σ) := do
  let (inode, s) ← (List.finRange inodeNumDirect).foldlM (clearDirect cache) (inode, s)
  let s ← freeIndirect cache inode s
  inodeSync sb cache ((inode.setIndirect 0).setNumBytes 0) true s

/-- What `inode_put` does with an inode that has no reference left, before it goes from memory. -/
def inodePutLast (sb : SuperBlock) (cache : BlockCache σ) (inode : Inode) (s : σ) :
    Except Stop (Inode × σ) := do
  if inode.entry.numLinks = 0 ∧ inode.inodeNo ≠ 1 then
    let (inode, s) ← inodeClear sb cache inode s
    inodeSync sb cache { inode with entry := .zero } true s
  else return (inode, s)

/-! ## The block map -/

/-- The direct branch of `inode_map`: the address is in the entry, or a new block is allocated and
its number is put there. -/
def inodeMapDirect (cache : BlockCache σ) (inode : Inode) (k : Fin inodeNumDirect)
    (modified : Bool) (s : σ) : Except Stop (Nat × Inode × Bool × σ) := do
  if inode.entry.addrs k ≠ 0 then return ((inode.entry.addrs k).toNat, inode, modified, s)
  else
    let (b, s) ← cache.alloc s
    return ((UInt32.ofNat b).toNat, inode.setAddr k (.ofNat b), true, s)

/-- `inode_map` makes sure that there is an indirect block. A new one is all zero, so no block is in
it yet. -/
def ensureIndirect (cache : BlockCache σ) (inode : Inode) (modified : Bool) (s : σ) :
    Except Stop (Inode × Bool × σ) := do
  if inode.entry.indirect = 0 then
    let (b, s) ← cache.alloc s
    return (inode.setIndirect (.ofNat b), true, s)
  else return (inode, modified, s)

/-- The indirect branch of `inode_map`. The block is released before `block_entry`, which points
into it, is used. -/
def inodeMapIndirect (cache : BlockCache σ) (inode : Inode) (k : Nat) (modified : Bool) (s : σ) :
    Except Stop (Nat × Inode × Bool × σ) := do
  let (inode, modified, s) ← ensureIndirect cache inode modified s
  let ind := inode.entry.indirect.toNat
  let s ← cache.acquire ind s
  let s ← cache.release ind s
  let d ← cache.bytes ind s
  if d.u32 k ≠ 0 then return ((d.u32 k).toNat, inode, modified, s)
  else
    let (b, s) ← cache.alloc s
    let d ← cache.bytes ind s
    let s ← cache.setBytes ind (d.setU32 k (.ofNat b)) s
    return ((UInt32.ofNat b).toNat, inode, true, s)

/-- `inode_map`. The result is the block number, the inode and `*modified`, which is set when a
block was allocated and otherwise keeps the value it came with. -/
def inodeMap (cache : BlockCache σ) (inode : Inode) (offset : Nat) (modified : Bool) (s : σ) :
    Except Stop (Nat × Inode × Bool × σ) := do
  kassert (offset < inodeMaxBytes) "offset < INODE_MAX_BYTES"
  let k := offset / blockSize
  if h : k < inodeNumDirect then inodeMapDirect cache inode ⟨k, h⟩ modified s
  else inodeMapIndirect cache inode (k - inodeNumDirect) modified s

/-- `inode_map2`: the block number of a position that is mapped. It allocates nothing; that an
element of the indirect block is not zero is not checked. -/
def inodeMap2 (cache : BlockCache σ) (inode : Inode) (offset : Nat) (s : σ) :
    Except Stop (Nat × σ) := do
  kassert (offset < inodeMaxBytes) "offset < INODE_MAX_BYTES"
  let k := offset / blockSize
  if h : k < inodeNumDirect then
    kassert (inode.entry.addrs ⟨k, h⟩ ≠ 0) "entry->addrs[block_index]"
    return ((inode.entry.addrs ⟨k, h⟩).toNat, s)
  else
    kassert (inode.entry.indirect ≠ 0) "entry->indirect"
    let ind := inode.entry.indirect.toNat
    let s ← cache.acquire ind s
    let d ← cache.bytes ind s
    let s ← cache.release ind s
    return ((d.u32 (k - inodeNumDirect)).toNat, s)

/-! ## Reading and writing -/

/-- `round_down(x, BLOCK_SIZE)` -/
def roundDown (x : Nat) : Nat := x / blockSize * blockSize

/-- The loop of `inode_read` from `i` on, with `n` turns to go. A turn copies the part of one block
that lies between `offset` and `end`. -/
def inodeReadFrom (cache : BlockCache σ) (inode : Inode) (offset end' : Nat) :
    Nat → Nat → σ → Except Stop (List UInt8 × σ)
  | 0, _, s => .ok ([], s)
  | n + 1, i, s => do
    let start := max i offset - i
    let term := min (i + blockSize) end' - i
    let (b, s) ← inodeMap2 cache inode i s
    let s ← cache.acquire b s
    let d ← cache.bytes b s
    let s ← cache.release b s
    let (rest, s) ← inodeReadFrom cache inode offset end' n (i + blockSize) s
    return (d.slice start (term - start) ++ rest, s)

/-- `inode_read`. The result is what `dest` receives. The sum of `offset` and `count` is a `usize`
and may wrap around, which the last assertion notices. -/
def inodeRead (cache : BlockCache σ) (inode : Inode) (offset count : Nat) (s : σ) :
    Except Stop (List UInt8 × σ) := do
  let end' := (offset + count) % 2 ^ 64
  kassert (offset ≤ inode.entry.numBytes.toNat) "offset <= entry->num_bytes"
  kassert (end' ≤ inode.entry.numBytes.toNat) "end <= entry->num_bytes"
  kassert (offset ≤ end') "offset <= end"
  let i := roundDown offset
  -- `while (i < end)`
  inodeReadFrom cache inode offset end' ((end' - i + (blockSize - 1)) / blockSize) i s

/-- The loop of `inode_write` from `i` on, with `n` turns to go. A turn maps one block and copies to
it the bytes that belong there; `src` are those still to be written. -/
def inodeWriteFrom (cache : BlockCache σ) (offset end' : Nat) :
    Nat → Nat → List UInt8 → Inode → Bool → σ → Except Stop (Inode × Bool × σ)
  | 0, _, _, inode, modify, s => .ok (inode, modify, s)
  | n + 1, i, src, inode, modify, s => do
    let start := max i offset - i
    let term := min (i + blockSize) end' - i
    let (b, inode, modify, s) ← inodeMap cache inode i modify s
    let s ← cache.acquire b s
    let d ← cache.bytes b s
    let s ← cache.setBytes b (d.splice start (src.take (term - start))) s
    let s ← cache.release b s
    inodeWriteFrom cache offset end' n (i + blockSize) (src.drop (term - start)) inode modify s

/-- `inode_write` of the `count` bytes `src`. Its loop makes a turn for the block of `end` too, even
where no byte goes there. The entry is stored if it has changed. -/
def inodeWrite (sb : SuperBlock) (cache : BlockCache σ) (inode : Inode) (src : List UInt8)
    (offset : Nat) (s : σ) : Except Stop (Inode × σ) := do
  let end' := (offset + src.length) % 2 ^ 64
  kassert (offset ≤ inode.entry.numBytes.toNat) "offset <= entry->num_bytes"
  kassert (end' ≤ inodeMaxBytes) "end <= INODE_MAX_BYTES"
  kassert (offset ≤ end') "offset <= end"
  let i := roundDown offset
  -- `while (i <= end)`
  let (inode, modify, s) ←
    inodeWriteFrom cache offset end' ((end' - i) / blockSize + 1) i src inode false s
  if modify = true ∨ inode.entry.numBytes.toNat < end' then
    inodeSync sb cache
      (inode.setNumBytes (.ofNat (max end' inode.entry.numBytes.toNat))) true s
  else return (inode, s)

end KernelAarch64.Fs
