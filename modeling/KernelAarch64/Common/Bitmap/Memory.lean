import KernelAarch64.Common.Bitmap
import KernelAarch64.Common.Memory
import KernelAarch64.Lib.Bytes

/-!
# Bitmaps in memory (`common/bitmap.h`, `common/bitmap.c`)

What the code calls a bitmap is the address of its first cell. A cell is the eight bytes at it, the
lowest first, so a bitmap is also an array of bytes, and `init_bitmap` clears it as one.
-/

namespace KernelAarch64.Common

open KernelAarch64.Lib

namespace Memory

/-- `bitmap[idx]` -/
def cell (mem : Memory) (bitmap idx : UInt64) : BitmapCell :=
  .ofNat 64 (leNat 8 fun k => mem (bitmap + 8 * idx + .ofNat k))

/-- `bitmap[idx] = v` -/
def setCell (mem : Memory) (bitmap idx : UInt64) (v : BitmapCell) : Memory := fun a =>
  let k := a - (bitmap + 8 * idx)
  if k < 8 then leByte v.toNat k.toNat else mem a

/-- `bitmap_get`: the cell that the bit is in is loaded as a 64-bit word, and one bit of it is
looked at. The code asserts nothing about the index, so an index past the bitmap reads the memory
behind it. -/
def bitmapGet (mem : Memory) (bitmap index : UInt64) : Bool :=
  let idx := index / 64
  let offset := index % 64
  ((mem.cell bitmap idx >>> offset.toNat) &&& 1#64) != 0#64

/-- `bitmap_set`: a whole cell is loaded and stored, so the seven other bytes of the cell are
written too, with what they were. -/
def bitmapSet (mem : Memory) (bitmap index : UInt64) : Memory :=
  let idx := index / 64
  let offset := index % 64
  mem.setCell bitmap idx (mem.cell bitmap idx ||| (1#64 <<< offset.toNat))

/-- `bitmap_clear`, which stores a whole cell like `bitmap_set`. -/
def bitmapClear (mem : Memory) (bitmap index : UInt64) : Memory :=
  let idx := index / 64
  let offset := index % 64
  mem.setCell bitmap idx (mem.cell bitmap idx &&& ~~~(1#64 <<< offset.toNat))

end Memory

/-- `BITMAP_TO_NUM_CELLS` -/
def bitmapToNumCells (size : UInt64) : UInt64 := (size + 64 - 1) / 64

/-- `init_bitmap` -/
def Memory.initBitmap (mem : Memory) (bitmap size : UInt64) : Memory :=
  (memset mem bitmap 0 (bitmapToNumCells size * 8)).2

/-- The array of `n` cells at an address. Its bytes do not wrap around the address space, and a
`usize` counts its bits: the translation set up by `start.S` is for addresses of 48 bits. -/
structure BitmapArray (n : Nat) where
  addr : UInt64
  fits : addr.toNat + 8 * n ≤ 2 ^ 64
  bits_lt : 64 * n < 2 ^ 64

namespace BitmapArray

variable {n k : Nat} {mem : Memory} {b : BitmapArray n} {idx : UInt64}

/-- The array as the bitmap functions on cells see it. -/
def cells (b : BitmapArray n) (mem : Memory) : Nat → BitmapCell := fun i => mem.cell b.addr (.ofNat i)

theorem toNat_cell (b : BitmapArray n) (hidx : idx.toNat < n) :
    (b.addr + 8 * idx).toNat = b.addr.toNat + 8 * idx.toNat := by
  have hfits := b.fits
  have h8 : (8 : UInt64).toNat = 8 := rfl
  rw [UInt64.toNat_add, UInt64.toNat_mul, h8]
  omega

theorem toNat_byte (b : BitmapArray n) (hidx : idx.toNat < n) (hk : k < 8) :
    (b.addr + 8 * idx + .ofNat k).toNat = b.addr.toNat + 8 * idx.toNat + k := by
  have hfits := b.fits
  rw [UInt64.toNat_add, b.toNat_cell hidx, UInt64.toNat_ofNat']
  omega

/-! ## Cells -/

theorem cell_setCell_self (mem : Memory) (p idx : UInt64) (v : BitmapCell) :
    (mem.setCell p idx v).cell p idx = v := by
  have hbytes : ∀ k < 8, mem.setCell p idx v (p + 8 * idx + .ofNat k) = leByte v.toNat k := by
    intro k hk
    have hoff : p + 8 * idx + .ofNat k - (p + 8 * idx) = .ofNat k := by
      rw [UInt64.add_comm]
      exact UInt64.add_sub_cancel _ _
    have hk' : (UInt64.ofNat k).toNat = k := UInt64.toNat_ofNat_of_lt' (hk.trans (by decide))
    have hlt : UInt64.ofNat k < 8 := by
      rw [UInt64.lt_iff_toNat_lt, hk']
      exact hk
    simp only [Memory.setCell, hoff, if_pos hlt, hk']
  have hv : v.toNat < 256 ^ 8 := v.isLt
  rw [Memory.cell, leNat_congr hbytes, leNat_leByte, Nat.mod_eq_of_lt hv, BitVec.ofNat_toNat,
    BitVec.setWidth_eq]

/-- Two cells of one bitmap share no byte, so that a store to one of them leaves the other as it
was. The bound on both indexes keeps the addresses from wrapping round. -/
theorem cell_setCell_of_ne {idx' : UInt64} (v : BitmapCell) (hidx : idx.toNat < n)
    (hidx' : idx'.toNat < n) (hne : idx' ≠ idx) :
    (mem.setCell b.addr idx v).cell b.addr idx' = mem.cell b.addr idx' := by
  have hbytes : ∀ k < 8, mem.setCell b.addr idx v (b.addr + 8 * idx' + .ofNat k) =
      mem (b.addr + 8 * idx' + .ofNat k) := by
    intro k hk
    have hne' : idx'.toNat ≠ idx.toNat := fun h => hne (UInt64.toNat_inj.mp h)
    have hfits := b.fits
    have h8 : (8 : UInt64).toNat = 8 := rfl
    rw [Memory.setCell, if_neg]
    rw [UInt64.lt_iff_toNat_lt, UInt64.toNat_sub, b.toNat_cell hidx, b.toNat_byte hidx' hk]
    omega
  rw [Memory.cell, leNat_congr hbytes, Memory.cell]

theorem cells_setCell (v : BitmapCell) (hidx : idx.toNat < n) {i : Nat} (hi : i < n) :
    b.cells (mem.setCell b.addr idx v) i = Function.update (b.cells mem) idx.toNat v i := by
  have hbits := b.bits_lt
  have hi' : (UInt64.ofNat i).toNat = i := UInt64.toNat_ofNat_of_lt' (by rw [UInt64.size]; omega)
  by_cases h : i = idx.toNat
  · subst h
    rw [Function.update_self, cells, UInt64.ofNat_toNat, cell_setCell_self]
  · have hne : UInt64.ofNat i ≠ idx := fun heq => h (by rw [← heq, hi'])
    rw [Function.update_of_ne h]
    exact cell_setCell_of_ne v hidx (by rwa [hi']) hne

/-! ## Bits -/

/-- The cell that `BITMAP_PARSE_INDEX` finds. -/
theorem cells_div (b : BitmapArray n) (mem : Memory) (i : UInt64) :
    b.cells mem (i.toNat / 64) = mem.cell b.addr (i / 64) := by
  rw [cells, ← UInt64.ofNat_toNat (x := i / 64)]
  rfl

theorem bitmapGet_eq_cells (b : BitmapArray n) (mem : Memory) (i : UInt64) :
    mem.bitmapGet b.addr i = bitmapGet (b.cells mem) i.toNat := by
  rw [bitmapGet, cells_div]
  rfl

variable {i j size : UInt64}

theorem toNat_div_lt (hi : i.toNat < 64 * n) : (i / 64).toNat < n := by
  rw [UInt64.toNat_div]
  exact Nat.div_lt_of_lt_mul hi

theorem cells_bitmapSet (b : BitmapArray n) (mem : Memory) (hi : i.toNat < 64 * n) (hk : k < n) :
    b.cells (mem.bitmapSet b.addr i) k = bitmapSet (b.cells mem) i.toNat k := by
  rw [bitmapSet, cells_div]
  exact cells_setCell _ (toNat_div_lt hi) hk

theorem cells_bitmapClear (b : BitmapArray n) (mem : Memory) (hi : i.toNat < 64 * n) (hk : k < n) :
    b.cells (mem.bitmapClear b.addr i) k = bitmapClear (b.cells mem) i.toNat k := by
  rw [bitmapClear, cells_div]
  exact cells_setCell _ (toNat_div_lt hi) hk

/-- Setting a bit sets that bit only. -/
theorem bitmapGet_bitmapSet (hi : i.toNat < 64 * n) (hj : j.toNat < 64 * n) :
    (mem.bitmapSet b.addr i).bitmapGet b.addr j = (decide (j = i) || mem.bitmapGet b.addr j) := by
  have hcell := cells_bitmapSet b mem hi (Nat.div_lt_of_lt_mul hj)
  rw [bitmapGet_eq_cells, bitmapGet_congr hcell, Common.bitmapGet_bitmapSet, bitmapGet_eq_cells,
    decide_eq_decide.mpr UInt64.toNat_inj]

/-- Clearing a bit clears that bit only. -/
theorem bitmapGet_bitmapClear (hi : i.toNat < 64 * n) (hj : j.toNat < 64 * n) :
    (mem.bitmapClear b.addr i).bitmapGet b.addr j =
      (!decide (j = i) && mem.bitmapGet b.addr j) := by
  have hcell := cells_bitmapClear b mem hi (Nat.div_lt_of_lt_mul hj)
  rw [bitmapGet_eq_cells, bitmapGet_congr hcell, Common.bitmapGet_bitmapClear, bitmapGet_eq_cells,
    decide_eq_decide.mpr UInt64.toNat_inj]

/-- Bit `i` of a bitmap is bit `i % 8` of the byte `i / 8` at its address. -/
theorem bitmapGet_eq_testBit (b : BitmapArray n) (mem : Memory) (i : UInt64) :
    mem.bitmapGet b.addr i = (mem (b.addr + i / 8)).toNat.testBit (i.toNat % 8) := by
  have hbit : i.toNat % 64 < 64 := Nat.mod_lt _ (by omega)
  have haddr : b.addr + 8 * (i / 64) + .ofNat (i.toNat % 64 / 8) = b.addr + i / 8 := by
    rw [UInt64.add_assoc]
    congr 1
    apply UInt64.toNat_inj.mp
    have hi := i.toNat_lt
    have h8 : (8 : UInt64).toNat = 8 := rfl
    have h64 : (64 : UInt64).toNat = 64 := rfl
    rw [UInt64.toNat_add, UInt64.toNat_mul, UInt64.toNat_div, UInt64.toNat_ofNat',
      UInt64.toNat_div, h8, h64]
    omega
  have hmod : i.toNat % 64 % 8 = i.toNat % 8 := Nat.mod_mod_of_dvd _ (by decide)
  rw [bitmapGet_eq_cells, bitmapGet_eq, cells_div, Memory.cell, BitVec.getLsbD_ofNat,
    testBit_leNat _ (by omega), haddr, hmod]
  simp [hbit]

/-! ## `init_bitmap` -/

theorem toNat_bitmapToNumCells (hsize : size.toNat + 63 < 2 ^ 64) :
    (bitmapToNumCells size).toNat = (size.toNat + 63) / 64 := by
  have h1 : (1 : UInt64).toNat = 1 := rfl
  have h64 : (64 : UInt64).toNat = 64 := rfl
  -- `size + 64` may wrap around, and then the subtraction wraps back.
  rw [bitmapToNumCells, UInt64.toNat_div, UInt64.toNat_sub, UInt64.toNat_add, h1, h64]
  omega

/-- The bits that `init_bitmap` was asked for are clear. It clears whole cells, so that the last one
may hold further bits, which are cleared with the others. -/
theorem bitmapGet_initBitmap (b : BitmapArray n) (mem : Memory) (hsize : size.toNat ≤ 64 * n)
    (hi : i < size) : (mem.initBitmap b.addr size).bitmapGet b.addr i = false := by
  have hbits := b.bits_lt
  have hlt : i.toNat < size.toNat := UInt64.lt_iff_toNat_lt.mp hi
  have h8 : (8 : UInt64).toNat = 8 := rfl
  have hcells := toNat_bitmapToNumCells (show size.toNat + 63 < 2 ^ 64 by omega)
  have hbyte : (i / 8).toNat < (bitmapToNumCells size * 8).toNat := by
    rw [UInt64.toNat_div, UInt64.toNat_mul, hcells, h8]
    omega
  rw [bitmapGet_eq_testBit, Memory.initBitmap, ← UInt64.ofNat_toNat (x := i / 8),
    memset_inside _ _ _ hbyte]
  exact Nat.zero_testBit _

end BitmapArray

end KernelAarch64.Common
