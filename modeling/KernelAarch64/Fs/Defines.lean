import KernelAarch64.Lib.Bytes
import KernelAarch64.Common.Bitmap

/-!
# On-disk representations (`fs/defines.h`)

A block is its 512 bytes. The super block, the log header and the bitmap are read from blocks
through little-endian fields; `LogHeader.toBlock` and `LogHeader.load` are the two casts
`(u8 *)&header` of `write_header` and `read_header`.
-/

namespace KernelAarch64.Fs

open KernelAarch64.Lib KernelAarch64.Common

/-- `BLOCK_SIZE` -/
abbrev blockSize : Nat := 512

/-- `LOG_MAX_SIZE`: how many block numbers fit in the log header. -/
abbrev logMaxSize : Nat := (blockSize - 8) / 8

/-- `BIT_PER_BLOCK` -/
abbrev bitPerBlock : Nat := blockSize * 8

/-- Bit `j` of the bitmap block `k` is in that block. -/
theorem div_bitPerBlock {k j : Nat} (hj : j < bitPerBlock) :
    (k * bitPerBlock + j) / bitPerBlock = k := by
  unfold bitPerBlock blockSize at *
  omega

/-- The content of a block. -/
abbrev BlockData := Fin blockSize → UInt8

/-- A disk, block by block. -/
abbrev Disk := Nat → BlockData

/-- The super block: how many blocks and inodes the disk has, and where its areas begin.
`num_log_blocks` counts the log header. -/
structure SuperBlock where
  numBlocks : UInt32
  numInodes : UInt32
  numLogBlocks : UInt32
  logStart : UInt32
  inodeStart : UInt32
  bitmapStart : UInt32
  deriving Repr, DecidableEq

namespace BlockData

/-- The all-zero block (`memset(buffer, 0, BLOCK_SIZE)`). -/
def zero : BlockData := fun _ => 0

/-- Byte `k` of a block. -/
def byte (d : BlockData) (k : Nat) : UInt8 :=
  if h : k < blockSize then d ⟨k, h⟩ else 0

/-- Element `i` of a block seen as an array of `usize`. -/
def u64 (d : BlockData) (i : Nat) : Nat := leNat 8 fun k => d.byte (8 * i + k)

/-- The block that holds the `usize` array `f`. -/
def ofU64 (f : Nat → Nat) : BlockData := fun k => leByte (f (k / 8)) (k % 8)

theorem byte_of_lt (d : BlockData) {k : Nat} (h : k < blockSize) : d.byte k = d ⟨k, h⟩ := by
  simp [byte, h]

theorem u64_ofU64 (f : Nat → Nat) {i : Nat} (hi : i < 64) : (ofU64 f).u64 i = f i % 2 ^ 64 := by
  have hbytes : ∀ k < 8, (ofU64 f).byte (8 * i + k) = leByte (f i) k := by
    intro k hk
    have hdiv : (8 * i + k) / 8 = i := by omega
    have hmod : (8 * i + k) % 8 = k := by omega
    have hlt : 8 * i + k < blockSize := by
      unfold blockSize
      omega
    rw [byte_of_lt _ hlt]
    simp only [ofU64, hdiv, hmod]
  rw [u64, leNat_congr hbytes, leNat_leByte]
  norm_num

theorem ofU64_congr {f g : Nat → Nat} (h : ∀ i < 64, f i % 2 ^ 64 = g i % 2 ^ 64) :
    ofU64 f = ofU64 g := by
  funext k
  have hk : k.val / 8 < 64 := by
    have : k.val < 512 := k.isLt
    omega
  have hmod : k.val % 8 < 8 := Nat.mod_lt _ (by omega)
  have hi := h _ hk
  rw [show (2 : Nat) ^ 64 = 256 ^ 8 by norm_num] at hi
  simp only [ofU64]
  rw [← leByte_mod (f (k / 8)) hmod, hi, leByte_mod _ hmod]

/-- The cells of a block seen as a bitmap. -/
def cells (d : BlockData) : Nat → BitmapCell := fun i => BitVec.ofNat 64 (d.u64 i)

/-- The block that holds the bitmap `c`. -/
def ofCells (c : Nat → BitmapCell) : BlockData := ofU64 fun i => (c i).toNat

theorem cells_ofCells (c : Nat → BitmapCell) {i : Nat} (hi : i < 64) :
    (ofCells c).cells i = c i := by
  apply BitVec.eq_of_toNat_eq
  rw [cells, ofCells, u64_ofU64 _ hi, BitVec.toNat_ofNat, Nat.mod_mod, Nat.mod_eq_of_lt (c i).isLt]

/-- `bitmap_get` on a block. -/
def bit (d : BlockData) (i : Nat) : Bool := bitmapGet d.cells i

/-- `bitmap_set` on a block. -/
def setBit (d : BlockData) (i : Nat) : BlockData := ofCells (bitmapSet d.cells i)

/-- `bitmap_clear` on a block. -/
def clearBit (d : BlockData) (i : Nat) : BlockData := ofCells (bitmapClear d.cells i)

theorem bit_ofCells (c : Nat → BitmapCell) {i : Nat} (hi : i < bitPerBlock) :
    (ofCells c).bit i = bitmapGet c i := by
  have hcell : i / 64 < 64 := by
    unfold bitPerBlock blockSize at hi
    omega
  rw [bit, bitmapGet_eq, bitmapGet_eq, cells_ofCells c hcell]

theorem bit_setBit (d : BlockData) (i : Nat) {j : Nat} (hj : j < bitPerBlock) :
    (d.setBit i).bit j = (decide (j = i) || d.bit j) := by
  rw [setBit, bit_ofCells _ hj, bitmapGet_bitmapSet, bit]

theorem bit_clearBit (d : BlockData) (i : Nat) {j : Nat} (hj : j < bitPerBlock) :
    (d.clearBit i).bit j = (!decide (j = i) && d.bit j) := by
  rw [clearBit, bit_ofCells _ hj, bitmapGet_bitmapClear, bit]

/-- Bit `i` of a block is bit `i % 8` of its byte `i / 8`. -/
theorem bit_eq_testBit (d : BlockData) (i : Nat) :
    d.bit i = (d.byte (i / 8)).toNat.testBit (i % 8) := by
  have hbit : i % 64 < 64 := Nat.mod_lt _ (by omega)
  have hbyte : 8 * (i / 64) + i % 64 / 8 = i / 8 := by omega
  have hmod : i % 64 % 8 = i % 8 := Nat.mod_mod_of_dvd _ (by decide)
  rw [bit, bitmapGet_eq, cells, u64, BitVec.getLsbD_ofNat, testBit_leNat _ (by omega), hbyte, hmod]
  simp [hbit]

@[simp] theorem bit_zero (i : Nat) : zero.bit i = false := by
  have hbyte : zero.byte (i / 8) = 0 := by simp [byte, zero]
  rw [bit_eq_testBit, hbyte]
  exact Nat.zero_testBit _

end BlockData

-- Unification must not open a field into its eight bytes.
attribute [irreducible] BlockData.u64

/-! ## The log header -/

/-- `LogHeader`. `block_no` is a C array in static memory; the model keeps every index, so that
an access past `LOG_MAX_SIZE` is an access to the memory behind the struct. -/
structure LogHeader where
  numBlocks : Nat
  blockNo : Nat → Nat

namespace LogHeader

/-- The block numbers the header lists. -/
def entries (h : LogHeader) : List Nat := (List.range h.numBlocks).map h.blockNo

/-- The header as the `BLOCK_SIZE` bytes that `write_header` writes. -/
def toBlock (h : LogHeader) : BlockData :=
  BlockData.ofU64 fun i => if i = 0 then h.numBlocks else h.blockNo (i - 1)

/-- `read_header`: the bytes of a block read over the header. The number and the 63 entries fill the
block up. -/
def load (h : LogHeader) (d : BlockData) : LogHeader where
  numBlocks := d.u64 0
  blockNo i := if i < logMaxSize then d.u64 (i + 1) else h.blockNo i

/-- `header.block_no[header.num_blocks] = b; header.num_blocks += 1`. -/
def push (h : LogHeader) (b : Nat) : LogHeader where
  numBlocks := h.numBlocks + 1
  blockNo := Function.update h.blockNo h.numBlocks b

/-- The header after `header.num_blocks = 0`. -/
def clear (h : LogHeader) : LogHeader := { h with numBlocks := 0 }

@[simp] theorem length_entries (h : LogHeader) : h.entries.length = h.numBlocks := by
  simp [entries]

@[simp] theorem entries_clear (h : LogHeader) : h.clear.entries = [] := rfl

@[simp] theorem numBlocks_clear (h : LogHeader) : h.clear.numBlocks = 0 := rfl

@[simp] theorem numBlocks_push (h : LogHeader) (b : Nat) :
    (h.push b).numBlocks = h.numBlocks + 1 := rfl

@[simp] theorem entries_push (h : LogHeader) (b : Nat) :
    (h.push b).entries = h.entries ++ [b] := by
  simp only [entries, push, List.range_succ, List.map_append, List.map_cons, List.map_nil,
    Function.update_self]
  congr 1
  apply List.map_congr_left
  intro i hi
  rw [Function.update_of_ne (by simp at hi; omega)]

theorem entries_of_numBlocks {h : LogHeader} (hn : h.numBlocks = 0) : h.entries = [] := by
  simp [entries, hn]

theorem u64_toBlock_zero (h : LogHeader) : h.toBlock.u64 0 = h.numBlocks % 2 ^ 64 := by
  rw [toBlock, BlockData.u64_ofU64 _ (by omega), if_pos rfl]

theorem u64_toBlock_succ (h : LogHeader) {i : Nat} (hi : i < logMaxSize) :
    h.toBlock.u64 (i + 1) = h.blockNo i % 2 ^ 64 := by
  have hi' : i + 1 < 64 := by
    unfold logMaxSize blockSize at hi
    omega
  rw [toBlock, BlockData.u64_ofU64 _ hi', if_neg (by omega), Nat.add_sub_cancel]

/-- A header that fits its block is read back as it was written. -/
theorem entries_load_toBlock (g h : LogHeader) (hn : h.numBlocks ≤ logMaxSize)
    (hb : ∀ b ∈ h.entries, b < 2 ^ 64) : (g.load h.toBlock).entries = h.entries := by
  have hnum : (g.load h.toBlock).numBlocks = h.numBlocks := by
    rw [load, u64_toBlock_zero, Nat.mod_eq_of_lt]
    unfold logMaxSize blockSize at hn
    omega
  rw [entries, entries, hnum]
  apply List.map_congr_left
  intro i hi
  have hlt : i < h.numBlocks := by simpa using hi
  have hmem : h.blockNo i ∈ h.entries := List.mem_map_of_mem hi
  simp only [load]
  rw [if_pos (by omega), u64_toBlock_succ h (by omega), Nat.mod_eq_of_lt (hb _ hmem)]

/-- Reading an empty header and writing it back changes nothing. -/
theorem toBlock_load_clear (g h : LogHeader) :
    (g.load h.clear.toBlock).clear.toBlock = h.clear.toBlock := by
  refine BlockData.ofU64_congr fun i hi => ?_
  cases i with
  | zero => rfl
  | succ i =>
    have hlt : i < logMaxSize := by
      unfold logMaxSize blockSize
      omega
    simp only [clear, load, Nat.add_one_ne_zero, if_false, Nat.add_sub_cancel, if_pos hlt]
    rw [show toBlock { numBlocks := 0, blockNo := h.blockNo } = h.clear.toBlock from rfl,
      u64_toBlock_succ h.clear hlt, Nat.mod_mod]
    rfl

theorem numBlocks_load_toBlock_clear (g h : LogHeader) :
    (g.load h.clear.toBlock).numBlocks = 0 := by
  rw [load, u64_toBlock_zero]
  rfl

end LogHeader

end KernelAarch64.Fs
