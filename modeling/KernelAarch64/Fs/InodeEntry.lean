import KernelAarch64.Fs.Defines

/-!
# Inodes on disk (`fs/defines.h`)

The layout of `InodeEntry` and `IndirectBlock` inside a block. An `InodeEntry` takes 64 bytes: six
`u16` (the last one is the padding before `addrs`, which `memcpy` copies like the rest), the twelve
direct addresses and the address of the indirect block. An `IndirectBlock` is an array of `u32`.
-/

namespace KernelAarch64.Fs

open KernelAarch64.Lib

/-- `INODE_NUM_DIRECT` -/
abbrev inodeNumDirect : Nat := 12

/-- `INODE_NUM_INDIRECT` -/
abbrev inodeNumIndirect : Nat := blockSize / 4

/-- `INODE_PER_BLOCK` -/
abbrev inodePerBlock : Nat := blockSize / 64

/-- `INODE_MAX_BLOCKS` -/
abbrev inodeMaxBlocks : Nat := inodeNumDirect + inodeNumIndirect

/-- `INODE_MAX_BYTES` -/
abbrev inodeMaxBytes : Nat := inodeMaxBlocks * blockSize

/-- `INODE_INVALID` -/
abbrev inodeInvalid : UInt16 := 0

/-! ## Bytes and words of a block -/

namespace BlockData

/-- `memcpy` of the `n` bytes of a block from `start` on. -/
def slice (d : BlockData) (start n : Nat) : List UInt8 :=
  (List.range n).map fun k => d.byte (start + k)

/-- `memcpy` of `bytes` into a block at `start`. -/
def splice (d : BlockData) (start : Nat) (bytes : List UInt8) : BlockData := fun k =>
  if start ≤ k ∧ k < start + bytes.length then bytes.getD (k - start) 0 else d k

/-- Element `i` of a block seen as an array of `u32`. -/
def u32 (d : BlockData) (i : Nat) : UInt32 := leU32 d.byte (4 * i)

/-- An assignment to element `i` of a block seen as an array of `u32`. -/
def setU32 (d : BlockData) (i : Nat) (v : UInt32) : BlockData := fun k =>
  if k.val / 4 = i then leByte v.toNat (k % 4) else d k

theorem byte_splice (d : BlockData) (start : Nat) (bytes : List UInt8) {k : Nat}
    (hk : k < blockSize) : (d.splice start bytes).byte k =
      if start ≤ k ∧ k < start + bytes.length then bytes.getD (k - start) 0 else d.byte k := by
  rw [byte_of_lt _ hk, byte_of_lt _ hk, splice]

theorem byte_setU32 (d : BlockData) (i : Nat) (v : UInt32) {k : Nat} (hk : k < blockSize) :
    (d.setU32 i v).byte k = if k / 4 = i then leByte v.toNat (k % 4) else d.byte k := by
  rw [byte_of_lt _ hk, byte_of_lt _ hk, setU32]

theorem u32_setU32 (d : BlockData) {i j : Nat} (v : UInt32) (hj : j < inodeNumIndirect) :
    (d.setU32 i v).u32 j = if j = i then v else d.u32 j := by
  have hbyte : ∀ k < 4, (d.setU32 i v).byte (4 * j + k) =
      if j = i then leByte v.toNat k else d.byte (4 * j + k) := by
    intro k hk
    have hlt : 4 * j + k < blockSize := by
      unfold inodeNumIndirect blockSize at hj
      unfold blockSize
      omega
    rw [byte_setU32 _ _ _ hlt, show (4 * j + k) / 4 = j by omega,
      show (4 * j + k) % 4 = k by omega]
  split
  · next hji =>
    simp only [hji, if_true] at hbyte
    rw [u32, hji]
    exact leU32_of_bytes hbyte
  · next hji =>
    simp only [hji, if_false] at hbyte
    exact leU32_congr hbyte

@[simp] theorem byte_zero (k : Nat) : zero.byte k = 0 := by
  simp [byte, zero]

@[simp] theorem u32_zero (i : Nat) : zero.u32 i = 0 := by
  simp [u32, leU32, leNat]

@[simp] theorem length_slice (d : BlockData) (start n : Nat) : (d.slice start n).length = n := by
  simp [slice]

end BlockData

/-! ## Inode entries -/

/-- `InodeEntry`, the 64 bytes of an inode on the disk: the `u16` members, the padding the compiler
puts behind them, and the block numbers. -/
@[ext]
structure InodeEntry where
  type : UInt16
  major : UInt16
  minor : UInt16
  numLinks : UInt16
  numBytes : UInt16
  /-- The two bytes of padding. -/
  pad : UInt16
  addrs : Fin inodeNumDirect → UInt32
  indirect : UInt32

namespace InodeEntry

/-- `memset(entry, 0, sizeof(InodeEntry))` -/
def zero : InodeEntry := ⟨0, 0, 0, 0, 0, 0, fun _ => 0, 0⟩

/-- The `u16` members in order, two bytes each from the start of the entry, the padding included. -/
def half (e : InodeEntry) : Nat → UInt16
  | 0 => e.type
  | 1 => e.major
  | 2 => e.minor
  | 3 => e.numLinks
  | 4 => e.numBytes
  | _ => e.pad

/-- The `u32` members in order, which start at word 3. -/
def word (e : InodeEntry) (w : Nat) : UInt32 :=
  if h : w - 3 < inodeNumDirect then e.addrs ⟨w - 3, h⟩ else e.indirect

/-- Byte `k` of an entry in memory. -/
def byte (e : InodeEntry) (k : Nat) : UInt8 :=
  if k < 12 then leByte (e.half (k / 2)).toNat (k % 2) else leByte (e.word (k / 4)).toNat (k % 4)

/-- The entry whose bytes are `f 0, …, f 63`, each member at its offset and least significant byte
first. -/
def ofBytes (f : Nat → UInt8) : InodeEntry where
  type := leU16 f 0
  major := leU16 f 2
  minor := leU16 f 4
  numLinks := leU16 f 6
  numBytes := leU16 f 8
  pad := leU16 f 10
  addrs i := leU32 f (4 * (3 + i))
  indirect := leU32 f 60

theorem leU16_byte (e : InodeEntry) {i : Nat} (hi : i < 6) : leU16 e.byte (2 * i) = e.half i := by
  refine leU16_of_bytes fun k hk => ?_
  rw [byte, if_pos (by omega), show (2 * i + k) / 2 = i by omega,
    show (2 * i + k) % 2 = k by omega]

theorem leU32_byte (e : InodeEntry) {w : Nat} (hw : 3 ≤ w) : leU32 e.byte (4 * w) = e.word w := by
  refine leU32_of_bytes fun k hk => ?_
  rw [byte, if_neg (by omega), show (4 * w + k) / 4 = w by omega,
    show (4 * w + k) % 4 = k by omega]

/-- An entry in memory is read back as it was written. -/
theorem ofBytes_byte (e : InodeEntry) : ofBytes e.byte = e := by
  ext1
  · exact e.leU16_byte (i := 0) (by omega)
  · exact e.leU16_byte (i := 1) (by omega)
  · exact e.leU16_byte (i := 2) (by omega)
  · exact e.leU16_byte (i := 3) (by omega)
  · exact e.leU16_byte (i := 4) (by omega)
  · exact e.leU16_byte (i := 5) (by omega)
  · funext i
    refine (e.leU32_byte (w := 3 + i) (by omega)).trans ?_
    simp [word]
  · exact e.leU32_byte (w := 15) (by omega)

theorem ofBytes_congr {f g : Nat → UInt8} (h : ∀ k < 64, f k = g k) : ofBytes f = ofBytes g := by
  have h16 : ∀ i < 62, leU16 f i = leU16 g i := fun i hi => leU16_congr fun k hk => h _ (by omega)
  have h32 : ∀ i < 61, leU32 f i = leU32 g i := fun i hi => leU32_congr fun k hk => h _ (by omega)
  simp only [ofBytes, InodeEntry.mk.injEq]
  refine ⟨h16 _ (by omega), h16 _ (by omega), h16 _ (by omega), h16 _ (by omega),
    h16 _ (by omega), h16 _ (by omega), ?_, h32 _ (by omega)⟩
  funext i
  have hi : i.val < 12 := i.isLt
  exact h32 _ (by omega)

end InodeEntry

/-- `get_entry`: the entry of an inode in its block. -/
def getEntry (d : BlockData) (inodeNo : Nat) : InodeEntry :=
  .ofBytes fun k => d.byte (64 * (inodeNo % inodePerBlock) + k)

/-- An assignment through the pointer that `get_entry` returns. -/
def putEntry (d : BlockData) (inodeNo : Nat) (e : InodeEntry) : BlockData := fun k =>
  if k.val / 64 = inodeNo % inodePerBlock then e.byte (k % 64) else d k

theorem byte_putEntry (d : BlockData) (inodeNo : Nat) (e : InodeEntry) {k : Nat}
    (hk : k < blockSize) : (putEntry d inodeNo e).byte k =
      if k / 64 = inodeNo % inodePerBlock then e.byte (k % 64) else d.byte k := by
  rw [BlockData.byte_of_lt _ hk, BlockData.byte_of_lt _ hk, putEntry]

theorem entry_offset_lt (inodeNo : Nat) {k : Nat} (hk : k < 64) :
    64 * (inodeNo % inodePerBlock) + k < blockSize := by
  have : inodeNo % inodePerBlock < 8 := Nat.mod_lt _ (by decide)
  unfold blockSize
  omega

/-- The entries of a block are apart from each other, so that storing one of them leaves the others
as they were. -/
theorem getEntry_putEntry (d : BlockData) (i j : Nat) (e : InodeEntry) :
    getEntry (putEntry d i e) j =
      if j % inodePerBlock = i % inodePerBlock then e else getEntry d j := by
  have hbyte : ∀ k < 64, (putEntry d i e).byte (64 * (j % inodePerBlock) + k) =
      if j % inodePerBlock = i % inodePerBlock then e.byte k
      else d.byte (64 * (j % inodePerBlock) + k) := by
    intro k hk
    rw [byte_putEntry _ _ _ (entry_offset_lt j hk),
      show (64 * (j % inodePerBlock) + k) / 64 = j % inodePerBlock by omega,
      show (64 * (j % inodePerBlock) + k) % 64 = k by omega]
  rw [getEntry, InodeEntry.ofBytes_congr hbyte]
  split
  · exact e.ofBytes_byte
  · rfl

end KernelAarch64.Fs
