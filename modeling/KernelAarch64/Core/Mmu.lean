import KernelAarch64.Core.VirtualMemory

/-!
# The memory management unit and the page table of the kernel (`aarch64/kernel_pt.c`, `start.S`)

With the `TCR_VALUE` of `start.S` both halves of the address space have 48-bit addresses and pages
of 4 KiB, so that the unit goes through four tables, from the one in `ttbr0_el1` or `ttbr1_el1` on.
An entry of the second or the third table may end the walk with a block. `IPS` is left 0, so that a
table, a page or a block at a physical address from 4 GiB on is a fault.

Both registers are set to `kernel_pt` at first. The kernel uses the upper half, where `P2K(pa)` is
the address of the physical address `pa`: the word there is `mem (p2k pa)`.

`kernel_pt_linear` says what `kernel_pt` does with every address. It is read off the walk from the
last table to the first: `walk_level3`, `walk_level2` and `walk`. The second half of the module is
for the tables of programs: `mmuWalk_links` compares the walk with the lookup of `my_pgdir_walk`.
-/

namespace KernelAarch64.Core

open KernelAarch64.Lib

/-- What an address is translated to, what programs at EL0 may do with it, and which field of
`mair_el1` says what kind of memory it is. -/
structure Translation where
  pa : Nat
  /-- Programs may load and store (`AP[1]`). -/
  user : Bool
  /-- Programs may execute: `UXN` is clear. -/
  execute : Bool
  attrIndx : Nat
  deriving DecidableEq

/-- The end of the physical addresses for the unit, by `IPS` of `TCR_VALUE`. -/
abbrev paEnd : Nat := 2 ^ 32

/-- The page or block at an entry of a table. Without `AF_USED` its use is a fault. No entry of the
kernel is read-only (`AP[2]`), and none for a table restricts what the table leads to. -/
def leafAt (index e va : Nat) : Option Translation :=
  let size := 2 ^ (9 * index + 12)
  let pa := e % 2 ^ 48 / size * size + va % size
  if e.testBit 10 ∧ pa < paEnd then some ⟨pa, e.testBit 6, !e.testBit 54, e / 4 % 8⟩ else none

/-- The walk of the unit from the table at a physical address on; `none` is a fault. -/
def mmuWalk (mem : Mem) (va : Nat) : (index : Nat) → (table : Nat) → Option Translation
  | 0, table =>
    let e := mem (p2k (table + 8 * (ptx 0 va).val))
    if paEnd ≤ table then none
    else if e % 4 = pteTable then leafAt 0 e va
    else none
  | index + 1, table =>
    let e := mem (p2k (table + 8 * (ptx (index + 1) va).val))
    if paEnd ≤ table then none
    else if e % 4 = pteTable then mmuWalk mem va index (pteAddress e % 2 ^ 48)
    else if e % 4 = pteValid ∧ index < 2 then leafAt (index + 1) e va
    else none

/-- The translation of an address, with the tables at `ttbr0` and `ttbr1`. Both halves have 48 bits;
an address that lies in neither is a fault. -/
def mmu (mem : Mem) (ttbr0 ttbr1 va : Nat) : Option Translation :=
  if va < 2 ^ 48 then mmuWalk mem va 3 ttbr0
  else if kspaceMask ≤ va ∧ va < 2 ^ 64 then mmuWalk mem va 3 ttbr1
  else none

/-! ## The page table of the kernel

The tables are initialised data of the image. `linearMap` is the translation in closed form. -/

/-- The page has an address in the upper half, and a physical address that the unit can use. -/
def Page.Linear (p : Page) : Prop := kspaceMask ≤ p.addr ∧ k2p p.addr < paEnd

instance (p : Page) : Decidable p.Linear := by
  unfold Page.Linear
  infer_instance

/-- `PTE_KERNEL_DATA` -/
abbrev pteKernelData : Nat := 0x605

/-- `PTE_KERNEL_DEVICE` -/
abbrev pteKernelDevice : Nat := 0x401

/-- `MT_NORMAL` -/
abbrev mtNormal : Nat := 1

/-- `MT_DEVICE_nGnRnE` -/
abbrev mtDevice : Nat := 0

/-- The tables of `kernel_pt.c`. Where they lie is up to the linker, so their pages are parameters.
-/
structure KernelPt where
  level3 : Page
  level2 : Page
  root : Page

namespace KernelPt

/-- `_kernel_pt_level3[i]`: the entries from `0x3f000000` on are those of the devices. -/
def level3Entry (i : Fin 512) : Nat :=
  0x200000 * i.val ||| if i.val < 504 then pteKernelData else pteKernelDevice

/-- `_kernel_pt_level2[i]`: the first GiB by the last table, the second and the fourth as blocks of
device memory, and the third one not at all. -/
def level2Entry (t : KernelPt) (i : Fin 512) : Nat :=
  match i.val with
  | 0 => (k2p t.level3.addr + pteTable) % 2 ^ 64
  | 1 => 0x40000000 ||| pteKernelDevice
  | 3 => 0xC0000000 ||| pteKernelDevice
  | _ => 0

/-- `kernel_pt[i]` -/
def rootEntry (t : KernelPt) (i : Fin 512) : Nat :=
  if i.val = 0 then (k2p t.level2.addr + pteTable) % 2 ^ 64 else 0

/-- The memory holds the tables, in the upper half and within reach of the unit. Nothing is said
about the rest of the memory, so programs may be anywhere else. -/
structure In (t : KernelPt) (mem : Mem) : Prop where
  level3 : ∀ i, mem (t.level3.entry i) = level3Entry i
  level2 : ∀ i, mem (t.level2.entry i) = t.level2Entry i
  root : ∀ i, mem (t.root.entry i) = t.rootEntry i
  kspace : ∀ p ∈ [t.level3, t.level2, t.root], p.Linear

/-- What `kernel_pt` makes of the low 48 bits of an address. No entry has `AP[1]` or `UXN`. -/
def linearMap (x : Nat) : Option Translation :=
  if x < 0x3f000000 then some ⟨x, false, true, mtNormal⟩
  else if x < 0x80000000 ∨ 0xc0000000 ≤ x ∧ x < 0x100000000 then some ⟨x, false, true, mtDevice⟩
  else none

end KernelPt

/-! ## Tables in the upper half

The unit finds the next table by its physical address, the kernel by its address in the upper half.
For a linear page the two are the same word of the memory. -/

variable {mem : Mem} {va : Nat}

/-- The unit reads the entry that the kernel has at `&pgdir[i]`. -/
theorem p2k_entry {t : Page} (ht : t.Linear) (i : Fin 512) :
    p2k (k2p t.addr + 8 * i.val) = t.entry i := by
  have hi := i.isLt
  have hlt := t.lt
  have haligned := t.aligned
  have hspace := ht.1
  unfold p2k k2p Page.entry
  unfold kspaceMask at *
  unfold pageSize at haligned
  omega

/-- A table in the upper half is found at the address in its link. -/
theorem pteAddress_link {t : Page} (ht : t.Linear) :
    (k2p t.addr + pteTable) % 4 = pteTable ∧
      pteAddress (k2p t.addr + pteTable) % 2 ^ 48 = k2p t.addr ∧
      k2p t.addr + pteTable < 2 ^ 64 := by
  have hlt := t.lt
  have haligned := t.aligned
  have hspace := ht.1
  unfold pteAddress k2p pteTable
  unfold kspaceMask at *
  unfold pageSize at haligned
  omega

/-- The walk goes on with a table that is linked. -/
theorem mmuWalk_link {t u : Page} {index : Nat} (ht : t.Linear) (hu : u.Linear)
    (hentry : mem (t.entry (ptx (index + 1) va)) = k2p u.addr + pteTable) :
    mmuWalk mem va (index + 1) (k2p t.addr) = mmuWalk mem va index (k2p u.addr) := by
  obtain ⟨hflags, haddress, -⟩ := pteAddress_link hu
  rw [mmuWalk, p2k_entry ht, hentry, if_neg (Nat.not_le.mpr ht.2), if_pos hflags, haddress]

/-- An entry that is zero is a fault, at any level, since its valid bit is clear. -/
theorem mmuWalk_zero {t : Page} {index : Nat} (ht : t.Linear)
    (hentry : mem (t.entry (ptx index va)) = 0) : mmuWalk mem va index (k2p t.addr) = none := by
  cases index with
  | zero =>
    rw [mmuWalk, p2k_entry ht, hentry, if_neg (Nat.not_le.mpr ht.2)]
    rfl
  | succ index =>
    rw [mmuWalk, p2k_entry ht, hentry, if_neg (Nat.not_le.mpr ht.2)]
    rfl

/-- The fields of an entry with an aligned address: the flags do not reach into the address, so they
can be read off separately. -/
theorem leafAt_add {index x flags : Nat} (hx : x < paEnd) (hindex : index < 3)
    (haligned : x % 2 ^ (9 * index + 12) = 0) (hflags : flags < 4096) :
    leafAt index (x + flags) va = if flags.testBit 10 then
      some ⟨x + va % 2 ^ (9 * index + 12), flags.testBit 6, true, flags / 4 % 8⟩ else none := by
  unfold paEnd at hx
  have hbit : ∀ k < 12, (x + flags).testBit k = flags.testBit k := by
    intro k hk
    have hmul : x = 2 ^ 12 * (x / 4096) := by
      interval_cases index <;> omega
    rw [hmul, Nat.two_pow_add_eq_or_of_lt (show flags < 2 ^ 12 from hflags), Nat.testBit_or,
      Nat.testBit_two_pow_mul, decide_eq_false (Nat.not_le.mpr hk), Bool.false_and, Bool.false_or]
  have haddress : (x + flags) % 2 ^ 48 / 2 ^ (9 * index + 12) * 2 ^ (9 * index + 12) = x := by
    interval_cases index <;> omega
  have hattr : (x + flags) / 4 % 8 = flags / 4 % 8 := by
    interval_cases index <;> omega
  have hexecute : (x + flags).testBit 54 = false := by
    apply Nat.testBit_lt_two_pow
    omega
  have hpa : x + va % 2 ^ (9 * index + 12) < paEnd := by
    unfold paEnd
    interval_cases index <;> omega
  simp only [leafAt, hbit 10 (by omega), hbit 6 (by omega), haddress, hattr, hexecute, hpa, and_true,
    Bool.not_false]

/-- A block of the kernel, in the memory or in the devices: the walk ends at a level above the last,
with the address of the block and the offset of the access in it. -/
theorem mmuWalk_block {t : Page} {index x : Nat} {device : Bool} (ht : t.Linear)
    (hindex : index < 2) (hx : x < paEnd) (haligned : x % 2 ^ (9 * (index + 1) + 12) = 0)
    (hentry : mem (t.entry (ptx (index + 1) va)) =
      x ||| if device then pteKernelDevice else pteKernelData) :
    mmuWalk mem va (index + 1) (k2p t.addr) =
      some ⟨x + va % 2 ^ (9 * (index + 1) + 12), false, true,
        if device then mtDevice else mtNormal⟩ := by
  have hpage : x % 4096 = 0 := by
    interval_cases index <;> omega
  have hflags : (if device then pteKernelDevice else pteKernelData) < 4096 := by
    cases device <;> decide
  have hvalid : (x + if device then pteKernelDevice else pteKernelData) % 4 = pteValid := by
    cases device
    · show (x + 0x605) % 4 = 1
      omega
    · show (x + 0x401) % 4 = 1
      omega
  rw [aligned_or_eq_add hpage hflags] at hentry
  rw [mmuWalk, p2k_entry ht, hentry, if_neg (Nat.not_le.mpr ht.2), hvalid, if_neg (by decide),
    if_pos ⟨rfl, hindex⟩, leafAt_add hx (Nat.succ_lt_succ hindex) haligned hflags]
  cases device <;> rfl

namespace KernelPt

variable {t : KernelPt}

/-- The tables of the kernel end the walk with the address itself. In the first GiB that is an entry
for two MiB, of memory or of a device. -/
theorem walk_level3 (h : t.In mem) (hva : va % 2 ^ 48 < 2 ^ 30) :
    mmuWalk mem va 1 (k2p t.level3.addr) = linearMap (va % 2 ^ 48) := by
  have hspace : t.level3.Linear := h.kspace _ (by simp)
  have hindex : (ptx 1 va).val = va % 2 ^ 48 / 2 ^ 21 := by
    show va / 2 ^ 21 % 512 = _
    omega
  have hlt := (ptx 1 va).isLt
  have hentry : mem (t.level3.entry (ptx 1 va)) = 0x200000 * (ptx 1 va).val |||
      if (decide (504 ≤ (ptx 1 va).val) : Bool) then pteKernelDevice else pteKernelData := by
    rw [h.level3, level3Entry]
    by_cases hdevice : 504 ≤ (ptx 1 va).val
    · rw [if_neg (Nat.not_lt.mpr hdevice), decide_eq_true hdevice, if_pos rfl]
    · rw [if_pos (Nat.not_le.mp hdevice), decide_eq_false hdevice, if_neg Bool.false_ne_true]
  have haligned : 0x200000 * (ptx 1 va).val % 2 ^ (9 * (0 + 1) + 12) = 0 := by omega
  have hlow : 0x200000 * (ptx 1 va).val < paEnd := by
    unfold paEnd
    omega
  rw [mmuWalk_block hspace (by decide) hlow haligned hentry]
  have hpa : 0x200000 * (ptx 1 va).val + va % 2 ^ (9 * (0 + 1) + 12) = va % 2 ^ 48 := by omega
  rw [hpa]
  by_cases hdevice : 504 ≤ (ptx 1 va).val
  · have hmap : linearMap (va % 2 ^ 48) = some ⟨va % 2 ^ 48, false, true, mtDevice⟩ := by
      rw [linearMap, if_neg (by omega), if_pos (by omega)]
    rw [hmap, decide_eq_true hdevice]
    rfl
  · have hmap : linearMap (va % 2 ^ 48) = some ⟨va % 2 ^ 48, false, true, mtNormal⟩ := by
      rw [linearMap, if_pos (by omega)]
    rw [hmap, decide_eq_false hdevice]
    rfl

/-- One table further up: the first GiB is described by the last table, the rest by blocks. The
cases are the four GiB that have an entry, and those that have none. -/
theorem walk_level2 (h : t.In mem) (hva : va % 2 ^ 48 < 2 ^ 39) :
    mmuWalk mem va 2 (k2p t.level2.addr) = linearMap (va % 2 ^ 48) := by
  have hspace : t.level2.Linear := h.kspace _ (by simp)
  have hnext : t.level3.Linear := h.kspace _ (by simp)
  have hindex : (ptx 2 va).val = va % 2 ^ 48 / 2 ^ 30 := by
    show va / 2 ^ 30 % 512 = _
    omega
  have hentry := h.level2 (ptx 2 va)
  -- A gigabyte of devices.
  have hblock : ∀ x, x < paEnd → x % 2 ^ 30 = 0 → 0x40000000 ≤ x →
      mem (t.level2.entry (ptx 2 va)) = x ||| pteKernelDevice → (ptx 2 va).val = x / 2 ^ 30 →
      mmuWalk mem va 2 (k2p t.level2.addr) = some ⟨va % 2 ^ 48, false, true, mtDevice⟩ := by
    intro x hx haligned hlow he hi
    have hpa : x + va % 2 ^ (9 * (1 + 1) + 12) = va % 2 ^ 48 := by omega
    have hdevice : mem (t.level2.entry (ptx (1 + 1) va)) =
        x ||| if true then pteKernelDevice else pteKernelData := he
    have haligned' : x % 2 ^ (9 * (1 + 1) + 12) = 0 := haligned
    rw [mmuWalk_block hspace (by decide : 1 < 2) hx haligned' hdevice, hpa]
    rfl
  obtain h0 | h1 | h2 | h3 | hrest : (ptx 2 va).val = 0 ∨ (ptx 2 va).val = 1 ∨
      (ptx 2 va).val = 2 ∨ (ptx 2 va).val = 3 ∨ 4 ≤ (ptx 2 va).val := by omega
  · simp only [level2Entry, h0] at hentry
    rw [mmuWalk_link hspace hnext (hentry.trans (Nat.mod_eq_of_lt (pteAddress_link hnext).2.2))]
    exact walk_level3 h (by omega)
  · simp only [level2Entry, h1] at hentry
    rw [hblock 0x40000000 (by decide) (by decide) (by decide) hentry h1, linearMap,
      if_neg (by omega), if_pos (by omega)]
  · simp only [level2Entry, h2] at hentry
    rw [mmuWalk_zero hspace hentry, linearMap, if_neg (by omega), if_neg (by omega)]
  · simp only [level2Entry, h3] at hentry
    rw [hblock 0xc0000000 (by decide) (by decide) (by decide) hentry h3, linearMap,
      if_neg (by omega), if_pos (by omega)]
  · have hzero : t.level2Entry (ptx 2 va) = 0 := by
      unfold level2Entry
      split <;> omega
    rw [mmuWalk_zero hspace (hentry.trans hzero), linearMap, if_neg (by omega), if_neg (by omega)]

/-- `kernel_pt` maps both halves of the address space alike, since the walk looks at the lower 48
bits only. What it finds there is one to one where there is anything. -/
theorem walk (h : t.In mem) (va : Nat) :
    mmuWalk mem va 3 (k2p t.root.addr) = linearMap (va % 2 ^ 48) := by
  have hspace : t.root.Linear := h.kspace _ (by simp)
  have hnext : t.level2.Linear := h.kspace _ (by simp)
  have hindex : (ptx 3 va).val = va % 2 ^ 48 / 2 ^ 39 := by
    show va / 2 ^ 39 % 512 = _
    omega
  have hentry := h.root (ptx 3 va)
  by_cases hzero : (ptx 3 va).val = 0
  · rw [rootEntry, if_pos hzero] at hentry
    rw [mmuWalk_link hspace hnext (hentry.trans (Nat.mod_eq_of_lt (pteAddress_link hnext).2.2))]
    exact walk_level2 h (by omega)
  · rw [rootEntry, if_neg hzero] at hentry
    rw [mmuWalk_zero hspace hentry, linearMap, if_neg (by omega), if_neg (by omega)]

/-- Programs can neither load nor store what `kernel_pt` maps, but may execute it. -/
theorem not_user {tr : Translation} (h : t.In mem)
    (htr : mmuWalk mem va 3 (k2p t.root.addr) = some tr) :
    tr.user = false ∧ tr.execute = true := by
  rw [walk h, linearMap] at htr
  split at htr
  · cases htr
    exact ⟨rfl, rfl⟩
  · split at htr
    · cases htr
      exact ⟨rfl, rfl⟩
    · cases htr

end KernelPt

/-- `phystop` -/
abbrev phystop : Nat := 0x3f000000

/-- With `kernel_pt` in `ttbr1_el1`, the address `P2K(pa)` is translated to `pa`: the memory and the
devices below 2 GiB, and the devices of the fourth GiB. While it is in `ttbr0_el1` too, addresses in
the lower half are physical addresses. Programs at EL0 can neither load nor store there; that they
execute it is not ruled out, as `UXN` is clear. The pages of the pool are memory, not devices. -/
theorem kernel_pt_linear {t : KernelPt} (h : t.In mem) :
    (∀ pa ttbr0, pa < 2 ^ 48 →
      mmu mem ttbr0 (k2p t.root.addr) (p2k pa) = KernelPt.linearMap pa ∧
      mmu mem (k2p t.root.addr) ttbr0 pa = KernelPt.linearMap pa) ∧
    (∀ va tr, mmu mem (k2p t.root.addr) (k2p t.root.addr) va = some tr →
      tr.user = false ∧ tr.execute = true) ∧
    ∀ start address a ttbr0, kspaceMask ≤ start →
      (∃ k < (Pool.boot.poolInit start (p2k phystop)).poolnumend, address = start + pageSize * k) →
      address ≤ a → a < address + pageSize →
      mmu mem ttbr0 (k2p t.root.addr) a = some ⟨k2p a, false, true, mtNormal⟩ := by
  -- The kernel's addresses are the physical ones with the upper bits set.
  have hupper : ∀ pa ttbr0, pa < 2 ^ 48 →
      mmu mem ttbr0 (k2p t.root.addr) (p2k pa) = KernelPt.linearMap pa := by
    intro pa ttbr0 hpa
    have hp2k : p2k pa = pa + kspaceMask := by
      unfold p2k kspaceMask
      omega
    have hlow : (pa + kspaceMask) % 2 ^ 48 = pa := by
      unfold kspaceMask
      omega
    rw [hp2k, mmu, if_neg (by unfold kspaceMask; omega), if_pos (by unfold kspaceMask; omega),
      KernelPt.walk h, hlow]
  refine ⟨?_, ?_, ?_⟩
  · intro pa ttbr0 hpa
    refine ⟨hupper pa ttbr0 hpa, ?_⟩
    rw [mmu, if_pos hpa, KernelPt.walk h, Nat.mod_eq_of_lt hpa]
  · intro va tr htr
    unfold mmu at htr
    split at htr
    · exact KernelPt.not_user h htr
    · split at htr
      · exact KernelPt.not_user h htr
      · cases htr
  · intro start address a ttbr0 hstart hpool hle hlt
    obtain ⟨k, hk, rfl⟩ := hpool
    -- The pages of the pool end below `PHYSTOP`.
    have hend : k < (p2k phystop - start) / pageSize := lt_of_lt_of_le hk (Nat.min_le_right _ _)
    have htop : p2k phystop = phystop + kspaceMask := by decide
    have hpa : k2p a < phystop ∧ p2k (k2p a) = a := by
      unfold k2p p2k
      unfold phystop pageSize at *
      unfold kspaceMask at *
      omega
    have ha := hupper (k2p a) ttbr0 (by unfold phystop at hpa; omega)
    rw [hpa.2] at ha
    rw [ha, KernelPt.linearMap, if_pos hpa.1]

/-- A memory with nothing but the tables. It shows that `In` can be met. -/
def KernelPt.image (t : KernelPt) : Mem := fun a =>
  let i : Fin 512 := ⟨a / 8 % 512, Nat.mod_lt _ (by decide)⟩
  if pteAddress a = t.level3.addr then level3Entry i
  else if pteAddress a = t.level2.addr then t.level2Entry i
  else if pteAddress a = t.root.addr then t.rootEntry i
  else 0

theorem Page.entry_parts (f : Page) (i : Fin 512) :
    pteAddress (f.entry i) = f.addr ∧ f.entry i / 8 % 512 = i.val := by
  have hi := i.isLt
  have haligned := f.aligned
  unfold pteAddress Page.entry
  unfold pageSize at haligned
  omega

theorem KernelPt.in_image {t : KernelPt} (h3 : t.level3.addr ≠ t.level2.addr)
    (h2 : t.level2.addr ≠ t.root.addr) (hroot : t.level3.addr ≠ t.root.addr)
    (hspace : ∀ p ∈ [t.level3, t.level2, t.root], p.Linear) : t.In t.image := by
  refine ⟨?_, ?_, ?_, hspace⟩
  · intro i
    obtain ⟨haddr, hi⟩ := t.level3.entry_parts i
    simp only [KernelPt.image, haddr, hi, if_true]
  · intro i
    obtain ⟨haddr, hi⟩ := t.level2.entry_parts i
    simp only [KernelPt.image, haddr, hi, if_neg (Ne.symm h3), if_true]
  · intro i
    obtain ⟨haddr, hi⟩ := t.root.entry_parts i
    simp only [KernelPt.image, haddr, hi, if_neg (Ne.symm hroot), if_neg (Ne.symm h2), if_true]

/-- Page `n` of the first three pages of the upper half, for the three tables of the examples. -/
def tablePage (n : Fin 3) : Page where
  addr := kspaceMask + pageSize * n
  lt := by
    have := n.isLt
    unfold kspaceMask pageSize
    omega
  aligned := by
    unfold kspaceMask pageSize
    omega

/-- The tables in these pages. -/
def firstKernelPt : KernelPt := ⟨tablePage 2, tablePage 1, tablePage 0⟩

theorem firstKernelPt_in : firstKernelPt.In firstKernelPt.image :=
  KernelPt.in_image (by decide) (by decide) (by decide) (by decide)

/-- A register of a device, an address without memory, and an address in a page of the pool. -/
theorem kernel_pt_linear_three :
    mmu firstKernelPt.image 0 0 (p2k 0x3f215040) = some ⟨0x3f215040, false, true, mtDevice⟩ ∧
      mmu firstKernelPt.image 0 0 (p2k 0x80000000) = none ∧
      mmu firstKernelPt.image 0 0 (kspaceMask + 0x80abc) = some ⟨0x80abc, false, true, mtNormal⟩ := by
  obtain ⟨hupper, -, hpool⟩ := kernel_pt_linear firstKernelPt_in
  refine ⟨(hupper 0x3f215040 0 (by decide)).1, (hupper 0x80000000 0 (by decide)).1, ?_⟩
  exact hpool (kspaceMask + 0x80000) (kspaceMask + 0x80000) (kspaceMask + 0x80abc) 0 (by decide)
    ⟨0, by decide, rfl⟩ (by decide) (by decide)

/-! ## The page tables of programs

`my_pgdir_walk` and the unit agree where the entries above the last tables are links: a block there
would end the walk of the unit, and the walk of the code would take it for a table. -/

/-- An entry that `my_pgdir_walk` writes for a table. -/
def IsLink (e : Nat) : Prop := ∃ u : Page, u.Linear ∧ e = k2p u.addr ||| pteTable

/-- The valid entries above the last tables are links. -/
abbrev TableLinks (mem : Mem) (pgdir : Page) : Prop :=
  Radix.EntriesAbove nextTable (tables mem) pgdir 3 IsLink

/-- The translation at an entry of a last table. -/
def lastEntry (va e : Nat) : Option Translation := if e % 4 = pteTable then leafAt 0 e va else none

/-- The unit faults at an entry without `PTE_VALID`. -/
theorem flags_of_invalid {e : Nat} (h : nextTable e = none) :
    e % 4 ≠ pteTable ∧ e % 4 ≠ pteValid := by
  have hinvalid : ¬ (e &&& pteValid ≠ 0) := by
    rw [← isSome_nextTable, h]
    exact Bool.false_ne_true
  rw [and_pteValid] at hinvalid
  unfold pteTable pteValid
  omega

/-- The unit goes the way of `my_pgdir_walk` and takes the page of the entry that is found. The
induction is on the tables that are left; a link leads to the same table for both, and where there
is none the unit faults. -/
theorem mmuWalk_links {pgdir t : Page} {q : List (Fin 512)} {index : Nat}
    (hlinks : TableLinks mem pgdir)
    (hq : q.length + index = 3) (ht : tableAt mem pgdir q = some t) (hspace : t.Linear) :
    mmuWalk mem va index (k2p t.addr) =
      (Radix.lookup nextTable (tables mem) t (pathFrom va index) (ptx 0 va)).bind
        (lastEntry va) := by
  induction index generalizing t q with
  | zero =>
    rw [mmuWalk, p2k_entry hspace, if_neg (Nat.not_le.mpr hspace.2)]
    show _ = (Option.filter _ (some (tables mem t (ptx 0 va)))).bind _
    cases hnext : nextTable (tables mem t (ptx 0 va)) with
    | none =>
      rw [Option.filter_some, hnext]
      exact if_neg (flags_of_invalid hnext).1
    | some u =>
      rw [Option.filter_some, hnext]
      rfl
  | succ index ih =>
    cases hnext : nextTable (tables mem t (ptx (index + 1) va)) with
    | none =>
      -- An entry that links no table is invalid for the hardware too.
      obtain ⟨htable, hblock⟩ := flags_of_invalid hnext
      have hlookup : Radix.lookup nextTable (tables mem) t (pathFrom va (index + 1)) (ptx 0 va) =
          none := by
        rw [Radix.lookup, pathFrom, Radix.descend, hnext]
        rfl
      rw [hlookup, mmuWalk, p2k_entry hspace, if_neg (Nat.not_le.mpr hspace.2)]
      exact (if_neg htable).trans (if_neg fun h => hblock h.1)
    | some u =>
      have hlink := hlinks q t (ptx (index + 1) va) (by omega) ht (by rw [hnext]; rfl)
      -- The table that is linked lies in the range that the kernel maps, so the hardware can read
      -- it.
      obtain ⟨v, hv, hentry⟩ := hlink
      have huv : u = v := by
        rw [hentry, nextTable_link] at hnext
        exact (Option.some.inj hnext).symm
      subst huv
      have hu : tableAt mem pgdir (q ++ [ptx (index + 1) va]) = some u := by
        rw [tableAt, Radix.descend_concat_of ht, hnext]
      have hlength : (q ++ [ptx (index + 1) va]).length + index = 3 := by
        rw [List.length_append, List.length_singleton]
        omega
      have hlookup : Radix.lookup nextTable (tables mem) t (pathFrom va (index + 1)) (ptx 0 va) =
          Radix.lookup nextTable (tables mem) u (pathFrom va index) (ptx 0 va) := by
        rw [Radix.lookup, pathFrom, Radix.descend, hnext]
        rfl
      rw [aligned_or_eq_add (p2k_k2p u.lt u.aligned).1 (by decide)] at hentry
      rw [hlookup, mmuWalk_link hspace hv hentry]
      exact ih hlength hu hv

/-- The page of an entry that `my_uvm_map` writes: programs have access. -/
theorem lastEntry_userData {f : Page} (hf : f.Linear) :
    lastEntry va (pteAddress (k2p f.addr) ||| pteUserData) =
      some ⟨k2p f.addr + va % pageSize, true, true, mtNormal⟩ := by
  have hlt := f.lt
  have haligned := f.aligned
  have hspace := hf.1
  have hk2p : pteAddress (k2p f.addr) = k2p f.addr ∧ k2p f.addr % 4096 = 0 := by
    unfold pteAddress k2p
    unfold kspaceMask at *
    unfold pageSize at haligned
    omega
  obtain ⟨haddress, hpage⟩ := hk2p
  have htable : (k2p f.addr + pteUserData) % 4 = pteTable := by
    unfold pteUserData pteTable
    omega
  rw [haddress, aligned_or_eq_add hpage (by decide), lastEntry, if_pos htable]
  exact leafAt_add hf.2 (by decide) hpage (by decide)

/-- Programs are in the lower half. -/
theorem mmu_user {pgdir : Page} {ttbr1 : Nat} (hlinks : TableLinks mem pgdir)
    (hspace : pgdir.Linear) (hva : va < 2 ^ 48) :
    mmu mem (k2p pgdir.addr) ttbr1 va = (translate mem pgdir va).bind (lastEntry va) := by
  rw [mmu, if_pos hva]
  exact mmuWalk_links (q := []) hlinks rfl rfl hspace

/-- Programs get at nothing in the upper half: what is mapped there is mapped by `kernel_pt`, whose
entries do not have `AP[1]`. -/
theorem mmu_upper {t : KernelPt} (h : t.In mem) (ttbr0 : Nat) (hva : ¬va < 2 ^ 48) :
    (mmu mem ttbr0 (k2p t.root.addr) va).filter Translation.user = none := by
  rw [Option.filter_eq_none_iff]
  intro tr htr
  rw [mmu, if_neg hva] at htr
  split at htr
  · rw [(KernelPt.not_user h htr).1]
    exact Bool.false_ne_true
  · cases htr

end KernelAarch64.Core
