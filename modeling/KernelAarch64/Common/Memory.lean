import KernelAarch64.Lib.Moves
import KernelAarch64.Lib.Writes
import Mathlib.Data.UInt

/-!
# Byte memory (`common/string.c`)

`memset` and `memmove` walk through memory with pointers, so the memory here is a function from
addresses and a pointer is an address. Arithmetic on pointers wraps around; a range of bytes fits
when the addresses in it do not.
-/

namespace KernelAarch64.Common

open KernelAarch64.Lib

/-- The bytes at all addresses. -/
abbrev Memory := UInt64 → UInt8

/-- `memset(s, c, n)`: the pointer it returns and the memory it leaves. Only the low byte of `c` is
stored, and the addresses wrap around as pointers do. -/
def memset (mem : Memory) (s : UInt64) (c : Int32) (n : UInt64) : UInt64 × Memory :=
  let fill (mem : Memory) (i : Nat) : Memory :=
    Function.update mem (s + .ofNat i) (c.toUInt32 &&& 0xff).toUInt8
  (s, (List.range n.toNat).foldl fill mem)

/-- `while (n-- > 0) *d++ = *s++`, the loop of `memmove` that copies from the lowest address to the
highest -/
def moveUp : Nat → UInt64 → UInt64 → Memory → Memory
  | 0, _, _, mem => mem
  | n + 1, d, s, mem => moveUp n (d + 1) (s + 1) (Function.update mem d (mem s))

/-- `while (n-- > 0) *--d = *--s`, the loop of `memmove` that copies from the highest address to the
lowest -/
def moveDown : Nat → UInt64 → UInt64 → Memory → Memory
  | 0, _, _, mem => mem
  | n + 1, d, s, mem => moveDown n (d - 1) (s - 1) (Function.update mem (d - 1) (mem (s - 1)))

/-- `memmove(dest, src, n)`: the pointer it returns and the memory it leaves. -/
def memmove (mem : Memory) (dest src n : UInt64) : UInt64 × Memory :=
  if src < dest ∧ dest - src < n then (dest, moveDown n.toNat (dest + n) (src + n) mem)
  else (dest, moveUp n.toNat dest src mem)

/-! ## Ranges of addresses -/

/-- The `n` bytes at `p` do not wrap around the address space. -/
def Fits (p n : UInt64) : Prop := p.toNat + n.toNat ≤ 2 ^ 64

instance (p n : UInt64) : Decidable (Fits p n) := inferInstanceAs (Decidable (_ ≤ _))

/-- The address `a` is none of the `n` bytes at `p`. -/
def Outside (p n a : UInt64) : Prop := a.toNat < p.toNat ∨ p.toNat + n.toNat ≤ a.toNat

variable {mem : Memory} {p n dest src : UInt64} {k : Nat}

theorem toNat_add_ofNat (hp : Fits p n) (hk : k < n.toNat) :
    (p + .ofNat k).toNat = p.toNat + k := by
  unfold Fits at hp
  rw [UInt64.toNat_add, UInt64.toNat_ofNat']
  omega

theorem ne_add_ofNat_of_outside {a : UInt64} (hp : Fits p n) (ha : Outside p n a)
    (hk : k < n.toNat) : a ≠ p + .ofNat k := by
  rintro rfl
  rw [Outside, toNat_add_ofNat hp hk] at ha
  omega

theorem add_ofNat_ne {q : UInt64} {j : Nat} (hp : Fits p n) (hq : Fits q n) (hj : j < n.toNat)
    (hk : k < n.toNat) (h : p.toNat + j ≠ q.toNat + k) : p + .ofNat j ≠ q + .ofNat k := by
  intro heq
  apply h
  rw [← toNat_add_ofNat hp hj, heq, toNat_add_ofNat hq hk]

/-! ## `memset` -/

theorem memset_eq_applyWrites (mem : Memory) (s : UInt64) (c : Int32) (n : UInt64) :
    (memset mem s c n).2 =
      applyWrites mem (((List.range n.toNat).map fun i => s + .ofNat i).map
        fun a => (a, (c.toUInt32 &&& 0xff).toUInt8)) := by
  simp only [memset, applyWrites, List.foldl_map]

/-- Every byte of the range gets the value. -/
theorem memset_inside (mem : Memory) (s : UInt64) (c : Int32) (hk : k < n.toNat) :
    (memset mem s c n).2 (s + .ofNat k) = (c.toUInt32 &&& 0xff).toUInt8 := by
  rw [memset_eq_applyWrites, applyWrites_map, if_pos]
  exact List.mem_map_of_mem (List.mem_range.mpr hk)

theorem memset_outside {s a : UInt64} (c : Int32) (hs : Fits s n) (ha : Outside s n a) :
    (memset mem s c n).2 a = mem a := by
  rw [memset_eq_applyWrites, applyWrites_map, if_neg]
  intro hmem
  obtain ⟨k, hk, heq⟩ := List.mem_map.mp hmem
  exact ne_add_ofNat_of_outside hs ha (List.mem_range.mp hk) heq.symm

/-! ## `memmove` -/

/-- The moves of the `n` bytes at `src` to `dest`, lowest address first. -/
def byteMoves (dest src : UInt64) (n : Nat) : List (UInt64 × UInt64) :=
  (List.range n).map fun k => (dest + .ofNat k, src + .ofNat k)

theorem moveUp_eq_moveAll (n : Nat) (d s : UInt64) (mem : Memory) :
    moveUp n d s mem = moveAll mem (byteMoves d s n) := by
  induction n generalizing d s mem with
  | zero => rfl
  | succ n ih =>
    have hstep : ∀ (p : UInt64) (k : Nat), p + 1 + .ofNat k = p + .ofNat (k + 1) := by
      intro p k
      rw [UInt64.ofNat_add, UInt64.add_assoc, UInt64.add_comm 1]
      rfl
    rw [moveUp, ih]
    simp only [byteMoves, List.range_succ_eq_map, List.map_cons, List.map_map, moveAll_cons,
      hstep]
    simp [Function.comp_def]

theorem moveDown_eq_moveAll (n : Nat) (dest src : UInt64) (mem : Memory) :
    moveDown n (dest + .ofNat n) (src + .ofNat n) mem =
      moveAll mem (byteMoves dest src n).reverse := by
  induction n generalizing mem with
  | zero => rfl
  | succ n ih =>
    have hstep : ∀ p : UInt64, p + .ofNat (n + 1) - 1 = p + .ofNat n := by
      intro p
      rw [UInt64.ofNat_add, ← UInt64.add_assoc]
      exact UInt64.add_sub_cancel _ _
    rw [moveDown, hstep, hstep, ih]
    simp [byteMoves, List.range_succ, moveAll_cons]

theorem mem_byteMoves {m : UInt64 × UInt64} {n : Nat} :
    m ∈ byteMoves dest src n ↔ ∃ k < n, (dest + .ofNat k, src + .ofNat k) = m := by
  simp only [byteMoves, List.mem_map, List.mem_range]

/-- The move of byte `j` leaves alone what the move of byte `k` needs. -/
theorem byteMove_apart {j : Nat} (hdest : Fits dest n) (hsrc : Fits src n) (hj : j < n.toNat)
    (hk : k < n.toNat) (hjk : j ≠ k) (h : dest.toNat + j ≠ src.toNat + k) :
    dest + .ofNat j ≠ dest + .ofNat k ∧ dest + .ofNat j ≠ src + .ofNat k := by
  constructor
  · apply add_ofNat_ne hdest hdest hj hk
    omega
  · exact add_ofNat_ne hdest hsrc hj hk h

/-- Moving up loses nothing unless `dest` is inside the source, behind its first byte. -/
theorem unspoilt_byteMoves (hdest : Fits dest n) (hsrc : Fits src n)
    (h : ¬ (src < dest ∧ dest - src < n)) : Unspoilt (byteMoves dest src n.toNat) := by
  have hfar : src.toNat < dest.toNat → src.toNat + n.toNat ≤ dest.toNat := by
    intro hlt
    have hle : src ≤ dest := UInt64.le_iff_toNat_le.mpr hlt.le
    have hnlt : ¬ dest - src < n := fun hn => h ⟨UInt64.lt_iff_toNat_lt.mpr hlt, hn⟩
    rw [UInt64.lt_iff_toNat_lt, UInt64.toNat_sub_of_le _ _ hle] at hnlt
    omega
  rw [Unspoilt, byteMoves, List.pairwise_map]
  apply List.pairwise_lt_range.imp_of_mem
  intro j k hj hk hjk
  rw [List.mem_range] at hj hk
  apply byteMove_apart hdest hsrc hj hk (Nat.ne_of_lt hjk)
  omega

/-- Moving down loses nothing when `dest` is above `src`. -/
theorem unspoilt_byteMoves_reverse (hdest : Fits dest n) (hsrc : Fits src n) (h : src < dest) :
    Unspoilt (byteMoves dest src n.toNat).reverse := by
  have hlt : src.toNat < dest.toNat := UInt64.lt_iff_toNat_lt.mp h
  rw [Unspoilt, List.pairwise_reverse, byteMoves, List.pairwise_map]
  apply List.pairwise_lt_range.imp_of_mem
  intro j k hj hk hjk
  rw [List.mem_range] at hj hk
  apply byteMove_apart hdest hsrc hk hj (Nat.ne_of_gt hjk)
  omega

/-- Both directions are moves of the same bytes, in an order in which none is lost. -/
theorem memmove_eq_moveAll (mem : Memory) (hdest : Fits dest n) (hsrc : Fits src n) :
    ∃ ms, Unspoilt ms ∧ (∀ m, m ∈ ms ↔ m ∈ byteMoves dest src n.toNat) ∧
      memmove mem dest src n = (dest, moveAll mem ms) := by
  rw [memmove]
  split
  · next h =>
    refine ⟨_, unspoilt_byteMoves_reverse hdest hsrc h.1, fun m => List.mem_reverse, ?_⟩
    rw [← moveDown_eq_moveAll, UInt64.ofNat_toNat]
  · next h =>
    exact ⟨_, unspoilt_byteMoves hdest hsrc h, fun m => Iff.rfl, by rw [moveUp_eq_moveAll]⟩

/-- Whatever the overlap of the two ranges, the bytes at `dest` become what the bytes at `src` were,
and no other byte changes. -/
theorem memmove_overlap (mem : Memory) (dest src n : UInt64) (hdest : Fits dest n)
    (hsrc : Fits src n) :
    (memmove mem dest src n).1 = dest ∧
      (∀ k < n.toNat, (memmove mem dest src n).2 (dest + .ofNat k) = mem (src + .ofNat k)) ∧
      ∀ a, Outside dest n a → (memmove mem dest src n).2 a = mem a := by
  obtain ⟨ms, hms, hmem, heq⟩ := memmove_eq_moveAll mem hdest hsrc
  rw [heq]
  refine ⟨rfl, fun k hk => ?_, fun a ha => ?_⟩
  · have hk : (dest + .ofNat k, src + .ofNat k) ∈ ms :=
      (hmem _).mpr (mem_byteMoves.mpr ⟨k, hk, rfl⟩)
    exact moveAll_of_mem hms hk
  · apply moveAll_of_ne
    intro m hm
    obtain ⟨k, hk, rfl⟩ := mem_byteMoves.mp ((hmem m).mp hm)
    exact ne_add_ofNat_of_outside hdest ha hk

/-- Four bytes are moved up by one. -/
theorem memmove_overlap_up :
    (memmove (fun a => a.toUInt8) 0x11 0x10 4).2 0x14 = 0x13 ∧
      (memmove (fun a => a.toUInt8) 0x11 0x10 4).2 0x10 = 0x10 := by
  obtain ⟨-, hmoved, hframe⟩ :=
    memmove_overlap (fun a => a.toUInt8) 0x11 0x10 4 (by decide) (by decide)
  exact ⟨hmoved 3 (by decide), hframe 0x10 (.inl (by decide))⟩

end KernelAarch64.Common
