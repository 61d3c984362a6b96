import KernelAarch64.Common.Bitmap.Memory
import KernelAarch64.Fs.Cache.Allocation

/-!
# Bitmap blocks byte by byte

The cache reads and writes a bitmap block through 64-bit cells; the tools that build an image, such
as `MockBlockDevice::initialize`, write it byte by byte. Both mean the same bits.

`BlockData.ext_bit` is what the comparison rests on: a block is determined by its bits, so two ways
of setting a bit are the same if they agree on all of them. `bitmap_disk_order` is the main result;
its first half is about bitmaps in memory (`Common.Bitmap.Memory`), its second half about the blocks
of a disk and the image that the tools build.
-/

namespace KernelAarch64.Fs

open KernelAarch64.Lib KernelAarch64.Common

namespace BlockData

variable {d d' : BlockData} {i k : Nat}

/-- `data[k / 8] |= (1 << (k % 8))` -/
def orByte (d : BlockData) (k : Nat) : BlockData := fun b =>
  if b = k / 8 then d b ||| .ofNat (1 <<< (k % 8)) else d b

/-- A block is its bits. -/
theorem ext_bit (h : ∀ i < bitPerBlock, d.bit i = d'.bit i) : d = d' := by
  funext b
  apply byte_ext
  intro j hj
  have hlt : b.val < 512 := b.isLt
  have hbit := h (8 * b.val + j) (by unfold bitPerBlock blockSize; omega)
  have hdiv : (8 * b.val + j) / 8 = b.val := by omega
  have hmod : (8 * b.val + j) % 8 = j := by omega
  rwa [bit_eq_testBit, bit_eq_testBit, hdiv, hmod, byte_of_lt _ b.isLt, byte_of_lt _ b.isLt] at hbit

theorem byte_orByte (d : BlockData) {b : Nat} (hb : b < blockSize) :
    (d.orByte k).byte b =
      if b = k / 8 then d.byte b ||| .ofNat (1 <<< (k % 8)) else d.byte b := by
  rw [byte_of_lt _ hb, byte_of_lt _ hb, orByte]

/-- The bits after a bit is set byte-wise: the mask touches one byte, and in it the one bit. -/
theorem bit_orByte (d : BlockData) (k : Nat) (hi : i < bitPerBlock) :
    (d.orByte k).bit i = (decide (i = k) || d.bit i) := by
  have hbyte : i / 8 < blockSize := Nat.div_lt_of_lt_mul (by rwa [Nat.mul_comm])
  have hmod : i % 8 < 8 := Nat.mod_lt _ (by omega)
  rw [bit_eq_testBit, bit_eq_testBit, byte_orByte d hbyte]
  split
  · next hdiv =>
    have hsame : decide (k % 8 = i % 8) = decide (i = k) :=
      decide_eq_decide.mpr (by omega)
    rw [UInt8.toNat_or, Nat.testBit_or, UInt8.toNat_ofNat', Nat.testBit_mod_two_pow,
      Nat.one_shiftLeft, Nat.testBit_two_pow, hsame, Bool.or_comm]
    simp [hmod]
  · next hdiv =>
    have hne : i ≠ k := fun h => hdiv (h ▸ rfl)
    simp [hne]

/-- Setting a bit byte-wise is `bitmap_set`. -/
theorem orByte_eq_setBit (d : BlockData) (k : Nat) : d.orByte k = d.setBit k := by
  apply ext_bit
  intro i hi
  rw [bit_orByte d k hi, bit_setBit d k hi]

end BlockData

/-! ## Blocks in memory

`bitmap_get` and its companions take the address of the first cell. A block in memory is read at
that address, so the functions on memory and on block data commute. -/

section BlockAt

variable {mem : Memory} {i : UInt64}

/-- The block at an address. -/
def blockAt (mem : Memory) (p : UInt64) : BlockData := fun k => mem (p + .ofNat k)

/-- Reading a bit through the address of a block is reading it from the block. -/
theorem bit_blockAt (b : BitmapArray 64) (mem : Memory) (hi : i.toNat < bitPerBlock) :
    (blockAt mem b.addr).bit i.toNat = mem.bitmapGet b.addr i := by
  have hbyte : i.toNat / 8 < blockSize := Nat.div_lt_of_lt_mul (by rwa [Nat.mul_comm])
  have hdiv : UInt64.ofNat (i.toNat / 8) = i / 8 := by
    rw [← UInt64.ofNat_toNat (x := i / 8)]
    rfl
  rw [BlockData.bit_eq_testBit, BlockData.byte_of_lt _ hbyte, b.bitmapGet_eq_testBit, blockAt, hdiv]

/-- Blocks in memory are equal if `bitmap_get` finds no difference. -/
theorem eq_blockAt {d : BlockData} (b : BitmapArray 64)
    (h : ∀ j : UInt64, j.toNat < 64 * 64 → mem.bitmapGet b.addr j = d.bit j.toNat) :
    blockAt mem b.addr = d := by
  apply BlockData.ext_bit
  intro j hj
  have hj' : j < 64 * 64 := hj
  have hofNat : (UInt64.ofNat j).toNat = j :=
    UInt64.toNat_ofNat_of_lt' (hj'.trans (by decide))
  rw [← hofNat] at hj' ⊢
  rw [bit_blockAt b mem hj', h _ hj']

/-- `bitmap_set` on a block in memory sets the bit of the block. -/
theorem blockAt_bitmapSet (b : BitmapArray 64) (hi : i.toNat < bitPerBlock) :
    blockAt (mem.bitmapSet b.addr i) b.addr = (blockAt mem b.addr).setBit i.toNat := by
  apply eq_blockAt b
  intro j hj
  rw [b.bitmapGet_bitmapSet hi hj, BlockData.bit_setBit _ _ hj, bit_blockAt b mem hj,
    decide_eq_decide.mpr UInt64.toNat_inj]

/-- `bitmap_clear` on a block in memory clears the bit of the block. -/
theorem blockAt_bitmapClear (b : BitmapArray 64) (hi : i.toNat < bitPerBlock) :
    blockAt (mem.bitmapClear b.addr i) b.addr = (blockAt mem b.addr).clearBit i.toNat := by
  apply eq_blockAt b
  intro j hj
  rw [b.bitmapGet_bitmapClear hi hj, BlockData.bit_clearBit _ _ hj, bit_blockAt b mem hj,
    decide_eq_decide.mpr UInt64.toNat_inj]

end BlockAt

/-! ## Building an image

The image starts with cleared bitmap blocks, and the blocks before the first data block are marked.
-/

/-- `disk[bitmap_start + j].data[k / 8] |= (1 << (k % 8))`, where `j` and `k` are the bitmap block
and the bit in it of block `i`. -/
def markUsed (sb : SuperBlock) (disk : Disk) (i : Nat) : Disk :=
  let j := i / bitPerBlock
  let k := i % bitPerBlock
  Function.update disk (sb.bitmapStart.toNat + j) ((disk (sb.bitmapStart.toNat + j)).orByte k)

/-- The part of `MockBlockDevice::initialize` that writes the bitmap: all blocks of it are zeroed,
then the bits of the preallocated blocks are set. -/
def initializeBitmap (sb : SuperBlock) (numBitmapBlocks numPreallocated : Nat) (disk : Disk) :
    Disk :=
  let fillZero (disk : Disk) (i : Nat) : Disk :=
    Function.update disk (sb.bitmapStart.toNat + i) BlockData.zero
  let zeroed := (List.range numBitmapBlocks).foldl fillZero disk
  (List.range numPreallocated).foldl (markUsed sb) zeroed

section Image

variable {sb : SuperBlock} {i n : Nat}

/-- Marking a block leaves the bits of the others, also in the same byte. -/
theorem bitmapBit_markUsed (sb : SuperBlock) (disk : Disk) (i k : Nat) :
    bitmapBit sb (markUsed sb disk k) i = (decide (i = k) || bitmapBit sb disk i) := by
  have hbit : i % bitPerBlock < bitPerBlock := Nat.mod_lt _ (by decide)
  simp only [bitmapBit, bitmapBlock, markUsed]
  by_cases hblock : i / bitPerBlock = k / bitPerBlock
  · have hsame : decide (i % bitPerBlock = k % bitPerBlock) = decide (i = k) := by
      apply decide_eq_decide.mpr
      unfold bitPerBlock blockSize at *
      omega
    rw [hblock, Function.update_self, BlockData.bit_orByte _ _ hbit, hsame]
  · have hne : i ≠ k := fun h => hblock (h ▸ rfl)
    rw [Function.update_of_ne (by omega)]
    simp [hne]

/-- The loop over the preallocated blocks marks those and no others. -/
theorem bitmapBit_foldl_markUsed (sb : SuperBlock) (disk : Disk) (i n : Nat) :
    bitmapBit sb ((List.range n).foldl (markUsed sb) disk) i =
      (decide (i < n) || bitmapBit sb disk i) := by
  induction n with
  | zero => simp
  | succ n ih =>
    have hlt : decide (i < n + 1) = (decide (i = n) || decide (i < n)) := by
      rw [← Bool.decide_or]
      exact decide_eq_decide.mpr (by omega)
    rw [List.range_succ, List.foldl_append, List.foldl_cons, List.foldl_nil, bitmapBit_markUsed, ih,
      hlt, Bool.or_assoc]

/-- The loop that clears the bitmap blocks. -/
theorem foldl_fillZero (disk : Disk) (start n : Nat) {b : Nat} (hb : b < n) :
    (List.range n).foldl (fun disk i => Function.update disk (start + i) BlockData.zero) disk
      (start + b) = BlockData.zero := by
  have hwrites := applyWrites_map disk ((List.range n).map fun i => start + i)
    (fun _ => BlockData.zero) (start + b)
  rw [if_pos (List.mem_map_of_mem (List.mem_range.mpr hb))] at hwrites
  simpa only [applyWrites, List.foldl_map] using hwrites

/-- In an image built byte-wise the bits of the preallocated blocks are set, and no others. -/
theorem bitmapBit_initializeBitmap (numPreallocated : Nat) (disk : Disk)
    (hi : i < n * bitPerBlock) :
    bitmapBit sb (initializeBitmap sb n numPreallocated disk) i = decide (i < numPreallocated) := by
  have hblock : i / bitPerBlock < n := Nat.div_lt_of_lt_mul (by rwa [Nat.mul_comm])
  rw [initializeBitmap, bitmapBit_foldl_markUsed]
  rw [bitmapBit, bitmapBlock, foldl_fillZero disk _ _ hblock, BlockData.bit_zero, Bool.or_false]

end Image

/-- Bitmaps are boolean arrays, and a block of the disk holds one byte by byte. -/
theorem bitmap_disk_order {n : Nat} (b : BitmapArray n) (mem : Memory) :
    (∀ i : UInt64, i.toNat < 64 * n →
      (mem.bitmapSet b.addr i).bitmapGet b.addr i = true ∧
      (mem.bitmapClear b.addr i).bitmapGet b.addr i = false ∧
      ∀ j : UInt64, j.toNat < 64 * n → j ≠ i →
        (mem.bitmapSet b.addr i).bitmapGet b.addr j = mem.bitmapGet b.addr j ∧
        (mem.bitmapClear b.addr i).bitmapGet b.addr j = mem.bitmapGet b.addr j) ∧
    (∀ size i : UInt64, size.toNat ≤ 64 * n → i < size →
      (mem.initBitmap b.addr size).bitmapGet b.addr i = false) ∧
    (∀ i : UInt64, i.toNat < 64 * n →
      mem.bitmapGet b.addr i = (mem (b.addr + i / 8)).toNat.testBit (i.toNat % 8)) ∧
    (∀ (d : BlockData) (i : Nat), i < bitPerBlock →
      d.bit i = (d.byte (i / 8)).toNat.testBit (i % 8) ∧ d.orByte i = d.setBit i) ∧
    ∀ (sb : SuperBlock) (numBitmapBlocks numPreallocated : Nat) (disk : Disk) (i : Nat),
      i < numBitmapBlocks * bitPerBlock →
      bitmapBit sb (initializeBitmap sb numBitmapBlocks numPreallocated disk) i =
        decide (i < numPreallocated) := by
  refine ⟨fun i hi => ?_, fun size i => b.bitmapGet_initBitmap mem,
    fun i _ => b.bitmapGet_eq_testBit mem i,
    fun d i _ => ⟨d.bit_eq_testBit i, d.orByte_eq_setBit i⟩,
    fun sb n m disk i => bitmapBit_initializeBitmap m disk⟩
  refine ⟨?_, ?_, fun j hj hne => ⟨?_, ?_⟩⟩
  · rw [b.bitmapGet_bitmapSet hi hi]
    simp
  · rw [b.bitmapGet_bitmapClear hi hi]
    simp
  · rw [b.bitmapGet_bitmapSet hi hj]
    simp [hne]
  · rw [b.bitmapGet_bitmapClear hi hj]
    simp [hne]

/-- Two cells at `0x1000`: the bits on both sides of the boundary, a bitmap of 100 bits, and an
image with one bitmap block. -/
theorem bitmap_disk_order_twoCells :
    let b : BitmapArray 2 := ⟨0x1000, by decide, by decide⟩
    let mem : Memory := fun a => a.toUInt8
    let sb : SuperBlock := ⟨1000, 200, 50, 2, 52, 102⟩
    (mem.bitmapSet b.addr 64).bitmapGet b.addr 64 = true ∧
      (mem.bitmapSet b.addr 64).bitmapGet b.addr 63 = mem.bitmapGet b.addr 63 ∧
      (mem.initBitmap b.addr 100).bitmapGet b.addr 99 = false ∧
      mem.bitmapGet b.addr 64 = (mem 0x1008).toNat.testBit 0 ∧
      BlockData.zero.orByte 9 = BlockData.zero.setBit 9 ∧
      bitmapBit sb (initializeBitmap sb 1 103 fun _ => BlockData.zero) 102 = true := by
  intro b mem sb
  obtain ⟨hbits, hinit, hbytes, hblock, himage⟩ := bitmap_disk_order b mem
  obtain ⟨hset, -, hother⟩ := hbits 64 (by decide)
  exact ⟨hset, (hother 63 (by decide) (by decide)).1, hinit 100 99 (by decide) (by decide),
    hbytes 64 (by decide), (hblock BlockData.zero 9 (by decide)).2,
    himage sb 1 103 (fun _ => BlockData.zero) 102 (by decide)⟩

end KernelAarch64.Fs
