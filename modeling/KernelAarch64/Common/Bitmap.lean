import Mathlib.Logic.Function.Basic
import Mathlib.Tactic.ByContra

/-!
# Bitmaps (`common/bitmap.h`)

A bitmap is an array of 64-bit cells; bit `index` lives in cell `index / 64` at offset
`index % 64`. The array is a function from cell indices, so that the same code serves the arena's
bitmaps and the bitmap blocks of the disk.
-/

namespace KernelAarch64.Common

/-- `BitmapCell` -/
abbrev BitmapCell := BitVec 64

/-- `BITMAP_BITS_PER_CELL` -/
abbrev bitmapBitsPerCell : Nat := 64

/-- The bit at `index`. -/
def bitmapGet (bitmap : Nat → BitmapCell) (index : Nat) : Bool :=
  ((bitmap (index / bitmapBitsPerCell) >>> (index % bitmapBitsPerCell)) &&& 1#64) != 0#64

/-- The bitmap with the bit at `index` set to 1. -/
def bitmapSet (bitmap : Nat → BitmapCell) (index : Nat) : Nat → BitmapCell :=
  Function.update bitmap (index / bitmapBitsPerCell)
    (bitmap (index / bitmapBitsPerCell) ||| (1#64 <<< (index % bitmapBitsPerCell)))

/-- The bitmap with the bit at `index` set to 0. -/
def bitmapClear (bitmap : Nat → BitmapCell) (index : Nat) : Nat → BitmapCell :=
  Function.update bitmap (index / bitmapBitsPerCell)
    (bitmap (index / bitmapBitsPerCell) &&& ~~~(1#64 <<< (index % bitmapBitsPerCell)))

/-- Reading a bit through a shift and a mask is reading it. -/
theorem bitmapGet_eq (bitmap : Nat → BitmapCell) (index : Nat) :
    bitmapGet bitmap index = (bitmap (index / 64)).getLsbD (index % 64) := by
  have hbit : ∀ x : BitVec 64, (x &&& 1#64 != 0#64) = x.getLsbD 0 := by
    intro x
    rw [BitVec.and_one_eq_setWidth_ofBool_getLsbD]
    cases x.getLsbD 0 <;> decide
  simp [bitmapGet, hbit]

/-- A bit depends on its cell only. -/
theorem bitmapGet_congr {bitmap bitmap' : Nat → BitmapCell} {index : Nat}
    (h : bitmap (index / 64) = bitmap' (index / 64)) :
    bitmapGet bitmap index = bitmapGet bitmap' index := by
  rw [bitmapGet_eq, bitmapGet_eq, h]

/-- `BIT(i)` has exactly bit `i` set. -/
theorem getLsbD_bit {i j : Nat} (hj : j < 64) : (1#64 <<< i).getLsbD j = decide (j = i) := by
  simp only [BitVec.getLsbD_shiftLeft, BitVec.getLsbD_one]
  by_cases hlt : j < i
  · have hji : j ≠ i := by omega
    simp [hlt, hji]
  · by_cases hji : j = i
    · subst hji
      simp [hj]
    · have : j - i ≠ 0 := by omega
      simp [this, hji]

/-- Two indices share a cell and an offset exactly when they are equal. -/
theorem mod_eq_iff_of_cell {i j : Nat} (hcell : j / 64 = i / 64) : j % 64 = i % 64 ↔ j = i := by
  omega

theorem bitmapGet_bitmapSet (bitmap : Nat → BitmapCell) (i j : Nat) :
    bitmapGet (bitmapSet bitmap i) j = (decide (j = i) || bitmapGet bitmap j) := by
  have hj : j % 64 < 64 := Nat.mod_lt _ (by decide)
  simp only [bitmapGet_eq, bitmapSet]
  by_cases hcell : j / 64 = i / 64
  · have hbit : decide (j % 64 = i % 64) = decide (j = i) :=
      decide_eq_decide.mpr (mod_eq_iff_of_cell hcell)
    rw [hcell, Function.update_self, BitVec.getLsbD_or, getLsbD_bit hj, hbit, Bool.or_comm]
  · have hji : j ≠ i := fun h => hcell (h ▸ rfl)
    rw [Function.update_of_ne hcell]
    simp [hji]

theorem bitmapGet_bitmapClear (bitmap : Nat → BitmapCell) (i j : Nat) :
    bitmapGet (bitmapClear bitmap i) j = (!decide (j = i) && bitmapGet bitmap j) := by
  have hj : j % 64 < 64 := Nat.mod_lt _ (by decide)
  simp only [bitmapGet_eq, bitmapClear]
  by_cases hcell : j / 64 = i / 64
  · have hbit : decide (j % 64 = i % 64) = decide (j = i) :=
      decide_eq_decide.mpr (mod_eq_iff_of_cell hcell)
    rw [hcell, Function.update_self, BitVec.getLsbD_and, BitVec.getLsbD_not, getLsbD_bit hj, hbit,
      Bool.and_comm]
    simp [hj]
  · have hji : j ≠ i := fun h => hcell (h ▸ rfl)
    rw [Function.update_of_ne hcell]
    simp [hji]

end KernelAarch64.Common
