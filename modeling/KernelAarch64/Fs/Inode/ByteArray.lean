import KernelAarch64.Fs.Cache.System
import KernelAarch64.Fs.Inode.BlockMap

/-!
# An inode is a byte array

The abstract file is a list of bytes. `inode_write` overlays bytes, `inode_read` returns a slice and
`inode_clear` empties the file; over a block cache that works as documented, the inode layer does
the same through its block map, for every sequence of calls.

The main result is `inode_refines_file`: for every sequence of legal calls the inode layer returns
what the abstract file returns, and no assertion fails. `Represents` relates the two sides, and has
a preservation lemma for each function, `Represents.inodeWrite`, `Represents.inodeRead` and
`Represents.inodeClear`; `Represents.call` and `Represents.run` put these in sequence. The loops are
treated first, on the slots of the block map (`BlockCache.Ideal.Owns`), where a turn touches one
block of the file; `Wrote` and `fileSlice` are their invariants. The mock cache of the inode tests
at the end is a cache with these properties.
-/

namespace KernelAarch64.Fs

open KernelAarch64.Lib

/-! ## The abstract file

Nothing here is about blocks. A legal call stays below 65536 bytes, as `inode_write` panics on a
larger file, whose size would not fit `num_bytes`. -/

/-- The content of a file. -/
abbrev File := List UInt8

/-- The calls that use a file, with the bytes that a write is given and the range that a read asks
for. -/
inductive FileOp where
  | write (offset : Nat) (bytes : List UInt8)
  | read (offset count : Nat)
  | clear

namespace File

/-- `bytes` overlaid at `offset`. -/
def write (file : File) (offset : Nat) (bytes : List UInt8) : File :=
  file.take offset ++ bytes ++ file.drop (offset + bytes.length)

/-- The `count` bytes from `offset` on. -/
def read (file : File) (offset count : Nat) : List UInt8 := (file.drop offset).take count

/-- The file after a call, as a list of bytes: a write overlays and extends it, `clear` empties it,
a read leaves it alone. -/
def next (file : File) : FileOp → File
  | .write offset bytes => file.write offset bytes
  | .read _ _ => file
  | .clear => []

/-- What a call returns. -/
def result (file : File) : FileOp → List UInt8
  | .read offset count => file.read offset count
  | _ => []

/-- Writes begin in the file or at its end and end below 65536, reads stay in the file. -/
def Legal (file : File) : FileOp → Prop
  | .write offset bytes => offset ≤ file.length ∧ offset + bytes.length ≤ 65535
  | .read offset count => offset + count ≤ file.length
  | .clear => True

/-- Every call of a sequence is legal. -/
def LegalRun (file : File) : List FileOp → Prop
  | [] => True
  | op :: ops => file.Legal op ∧ (file.next op).LegalRun ops

/-- The results of a sequence of calls, and the file after them. -/
def run (file : File) : List FileOp → List (List UInt8) × File
  | [] => ([], file)
  | op :: ops => (file.result op :: ((file.next op).run ops).1, ((file.next op).run ops).2)

/-- A write can make a file longer, not shorter. -/
theorem length_write (file : File) {offset : Nat} (h : offset ≤ file.length)
    (bytes : List UInt8) :
    (file.write offset bytes).length = max file.length (offset + bytes.length) := by
  simp only [write, List.length_append, List.length_take, List.length_drop]
  omega

/-- The bytes of a file after a write: those of the buffer in the range that was written, and the
old ones before and after it. -/
theorem getD_write (file : File) {offset : Nat} (h : offset ≤ file.length) (bytes : List UInt8)
    (p : Nat) : (file.write offset bytes).getD p 0 =
      if offset ≤ p ∧ p < offset + bytes.length then bytes.getD (p - offset) 0
      else file.getD p 0 := by
  have htake : (file.take offset).length = offset := by
    rw [List.length_take]
    omega
  simp only [write, List.getD_eq_getElem?_getD, List.append_assoc]
  by_cases hp : p < offset
  · rw [if_neg (by omega), List.getElem?_append_left (by omega), List.getElem?_take_of_lt hp]
  · rw [List.getElem?_append_right (by omega), htake]
    by_cases hp' : p < offset + bytes.length
    · rw [if_pos ⟨by omega, hp'⟩, List.getElem?_append_left (by omega)]
    · rw [if_neg (by omega), List.getElem?_append_right (by omega), List.getElem?_drop]
      congr 2
      omega

end File

namespace BlockCache.Ideal

variable {σ : Type} {cache : BlockCache σ} {c : cache.Ideal} {base : Finset Nat} {e : InodeEntry}
  {inode inode' : Inode} {s t : σ}

/-! ## Writing

The loop of `inode_write` goes block by block: it maps the block, copies the part of the source that
belongs there, and goes on with the rest. `Wrote` says what is in the file after some turns. A turn
that needs a block may fail because there is none; the lemmas carry this as the alternative `Q`,
which is false for a cache that has enough of them. -/

/-- Bytes of mapped blocks keep their value while other blocks are mapped. -/
theorem Extends.fileByte {p : Nat} (h : c.Extends base inode s inode' t)
    (hp : p / blockSize < inodeMaxBlocks)
    (ha : inode.entry.addr (c.mem s) (p / blockSize) ≠ 0) :
    inode'.entry.fileByte (c.mem t) p = inode.entry.fileByte (c.mem s) p := by
  rw [InodeEntry.fileByte, InodeEntry.fileByte, h.addr _ hp ha, h.content _ hp ha]

/-- A `memcpy` into a block of the file changes the bytes at their place in the file. -/
theorem Owns.fileByte_splice (h : c.Owns base e s) {k start : Nat} {bytes : List UInt8}
    (hk : k < inodeMaxBlocks) (ha : e.addr (c.mem s) k ≠ 0)
    (hmem : c.mem t = Function.update (c.mem s) (e.addr (c.mem s) k)
      ((c.mem s (e.addr (c.mem s) k)).splice start bytes))
    (hused : c.used t = c.used s) {p : Nat} (hp : p / blockSize < inodeMaxBlocks)
    (hap : e.addr (c.mem s) (p / blockSize) ≠ 0) :
    e.fileByte (c.mem t) p =
      if p / blockSize = k ∧ start ≤ p % blockSize ∧ p % blockSize < start + bytes.length then
        bytes.getD (p % blockSize - start) 0
      else e.fileByte (c.mem s) p := by
  have haddr := (h.write hk ha hmem hused).2
  have hmod : p % blockSize < blockSize := Nat.mod_lt _ (by decide)
  rw [InodeEntry.fileByte, haddr, hmem]
  by_cases hpk : p / blockSize = k
  · rw [hpk, Function.update_self, BlockData.byte_splice _ _ _ hmod]
    simp only [true_and, InodeEntry.fileByte, hpk]
  · have hne : e.addr (c.mem s) (p / blockSize) ≠ e.addr (c.mem s) k := fun heq =>
      hpk (h.addr_inj hp hk hap heq)
    rw [Function.update_of_ne hne, if_neg (fun hc => hpk hc.1)]
    rfl

/-- `src` was written to the positions from `q` up to `end'`; every other byte of a mapped block is
as it was, and no block was unmapped. -/
structure Wrote (c : cache.Ideal) (base : Finset Nat) (q end' : Nat) (src : List UInt8)
    (inode : Inode) (s : σ) (inode' : Inode) (t : σ) : Prop where
  head : ∃ addrs indirect, inode' =
    { inode with entry := { inode.entry with addrs := addrs, indirect := indirect } }
  base : ∀ x ∈ base, c.mem t x = c.mem s x
  mapped : ∀ k < inodeMaxBlocks, inode.entry.addr (c.mem s) k ≠ 0 →
    inode'.entry.addr (c.mem t) k ≠ 0
  outside : ∀ p, p / blockSize < inodeMaxBlocks → inode.entry.addr (c.mem s) (p / blockSize) ≠ 0 →
    p < q ∨ end' ≤ p → inode'.entry.fileByte (c.mem t) p = inode.entry.fileByte (c.mem s) p
  inside : ∀ p, q ≤ p → p < end' → inode'.entry.addr (c.mem t) (p / blockSize) ≠ 0 ∧
    inode'.entry.fileByte (c.mem t) p = src.getD (p - q) 0

/-- One turn of the loop of `inode_write`, followed by the rest of the loop. The turn writes to one
block and the rest to later ones, so neither undoes what the other has done. -/
theorem Wrote.cons {offset end' i b : Nat} {src : List UInt8} {inode₁ : Inode} {s₁ s₂ : σ}
    (hi : i % blockSize = 0) (hle : i ≤ end') (hend : end' < inodeMaxBytes)
    (hoffset : offset < i + blockSize) (hoe : offset ≤ end')
    (hlen : src.length = end' - max i offset)
    (hmap : c.Mapped base inode s (i / blockSize) b inode₁ s₁)
    (hmem : c.mem s₂ = Function.update (c.mem s₁) b ((c.mem s₁ b).splice (max i offset - i)
      (src.take (min (i + blockSize) end' - i - (max i offset - i)))))
    (hused : c.used s₂ = c.used s₁)
    (hrest : c.Wrote base (max (i + blockSize) offset) end'
      (src.drop (min (i + blockSize) end' - i - (max i offset - i))) inode₁ s₂ inode' t) :
    c.Wrote base (max i offset) end' src inode s inode' t := by
  have hk : i / blockSize < inodeMaxBlocks := div_lt_inodeMaxBlocks (by omega)
  have hb0 : inode₁.entry.addr (c.mem s₁) (i / blockSize) ≠ 0 := by
    rw [hmap.addr]
    exact hmap.ne_zero
  rw [← hmap.addr] at hmem
  obtain ⟨-, haddr⟩ := hmap.owns.write hk hb0 hmem hused
  have hbyte := fun {p} => hmap.owns.fileByte_splice hk hb0 hmem hused (p := p)
  simp only [List.length_take, hlen] at hbyte
  unfold blockSize at *
  constructor
  · obtain ⟨a, d, rfl⟩ := hmap.extends'.head
    obtain ⟨a', d', rfl⟩ := hrest.head
    exact ⟨a', d', rfl⟩
  · intro x hx
    have hxb : x ≠ inode₁.entry.addr (c.mem s₁) (i / 512) := by
      rintro rfl
      exact hmap.owns.addr_notMem_base hk hb0 hx
    rw [hrest.base x hx, hmem, Function.update_of_ne hxb, hmap.extends'.base x hx]
  · intro k hk' ha
    apply hrest.mapped k hk'
    rwa [haddr, hmap.extends'.addr k hk' ha]
  · intro p hp ha hout
    -- Outside of the range neither this turn nor the rest writes.
    have ha₁ : inode₁.entry.addr (c.mem s₁) (p / 512) ≠ 0 := by
      rwa [hmap.extends'.addr _ hp ha]
    rw [hrest.outside p hp (by rwa [haddr]) (by omega), hbyte hp ha₁, if_neg (by omega)]
    exact hmap.extends'.fileByte hp ha
  · intro p hqp hpe
    by_cases hnext : p < i + 512
    · -- the byte is in this block
      have hpk : p / 512 = i / 512 := by omega
      have ha₁ : inode₁.entry.addr (c.mem s₁) (p / 512) ≠ 0 := by rwa [hpk]
      have hp : p / 512 < inodeMaxBlocks := by rwa [hpk]
      refine ⟨hrest.mapped _ hp (by rwa [haddr]), ?_⟩
      rw [hrest.outside p hp (by rwa [haddr]) (by omega), hbyte hp ha₁, if_pos (by omega)]
      simp only [List.getD_eq_getElem?_getD]
      rw [List.getElem?_take_of_lt (by omega)]
      congr 2
      omega
    -- The byte is in a later block, which the rest of the loop writes.
    · obtain ⟨ha, hval⟩ := hrest.inside p (by omega) hpe
      refine ⟨ha, ?_⟩
      rw [hval]
      simp only [List.getD_eq_getElem?_getD, List.getElem?_drop]
      congr 2
      omega

/-- What one turn of the loop of `inode_write` copies to the block. -/
def turnBytes (offset end' i : Nat) (src : List UInt8) : List UInt8 :=
  src.take (min (i + blockSize) end' - i - (max i offset - i))

/-- What is left for the turns after it. -/
def turnRest (offset end' i : Nat) (src : List UInt8) : List UInt8 :=
  src.drop (min (i + blockSize) end' - i - (max i offset - i))

/-- One turn of the loop of `inode_write`: block `b` is mapped for it, and its bytes are copied
there. `s₁` is the state between the two. -/
structure Turn (c : cache.Ideal) (base : Finset Nat) (offset end' i : Nat) (src : List UInt8)
    (inode : Inode) (s : σ) (b : Nat) (inode' : Inode) (s₁ t : σ) : Prop where
  mapped : c.Mapped base inode s (i / blockSize) b inode' s₁
  fills : c.Fills (slotsFor (i / blockSize)) inode s inode' s₁
  mem : c.mem t = Function.update (c.mem s₁) b
    ((c.mem s₁ b).splice (max i offset - i) (turnBytes offset end' i src))
  used : c.used t = c.used s₁
  owns : c.Owns base inode'.entry t

/-- A turn is made, and the loop goes on with the next block; or the turn fails since no block could
be allocated, and the loop with it. -/
theorem inodeWriteFrom_turn {Q : Prop} (halloc : c.AllocOr base Q) (offset end' : Nat) {i : Nat}
    (h : c.Owns base inode.entry s) (hi : i < inodeMaxBytes) (src : List UInt8) (modify : Bool) :
    (∃ b inode₁ modify₁ s₁ s₂, c.Turn base offset end' i src inode s b inode₁ s₁ s₂ ∧
      (modify₁ = true ∨ modify₁ = modify ∧ inode₁ = inode) ∧
      ∀ n, inodeWriteFrom cache offset end' (n + 1) i src inode modify s =
        inodeWriteFrom cache offset end' n (i + blockSize) (turnRest offset end' i src) inode₁ modify₁
          s₂) ∨
    (Q ∧ ∃ e, ∀ n, inodeWriteFrom cache offset end' (n + 1) i src inode modify s = .error e) := by
  rcases inodeMap_cases h halloc hi modify with
    ⟨b, inode₁, modify₁, s₁, hmap, hmapped, hfills, hmod⟩ | ⟨hQ, e, herr⟩
  swap
  · exact .inr ⟨hQ, e, fun n => by simp only [inodeWriteFrom, herr, error_bind]⟩
  obtain ⟨s₂, hacq, hmem₂, hused₂⟩ := c.acquire b s₁
  obtain ⟨s₃, hset, hmem₃, hused₃⟩ := c.setBytes b
    ((c.mem s₂ b).splice (max i offset - i) (turnBytes offset end' i src)) s₂
  obtain ⟨s₄, hrel, hmem₄, hused₄⟩ := c.release b s₃
  have hmem : c.mem s₄ = Function.update (c.mem s₁) b
      ((c.mem s₁ b).splice (max i offset - i) (turnBytes offset end' i src)) := by
    rw [hmem₄, hmem₃, hmem₂]
  have hused : c.used s₄ = c.used s₁ := by rw [hused₄, hused₃, hused₂]
  refine .inl ⟨b, inode₁, modify₁, s₁, s₄, ⟨hmapped, hfills, hmem, hused, ?_⟩, hmod, fun n => ?_⟩
  · rw [← hmapped.addr] at hmem
    exact (hmapped.owns.write (div_lt_inodeMaxBlocks hi) (hmapped.addr.trans_ne hmapped.ne_zero)
      hmem hused).1
  · unfold turnBytes at hset
    simp only [inodeWriteFrom, hmap, ok_bind, hacq, c.bytes, hset, hrel]
    rfl

/-- The loop of `inode_write` writes the rest of its bytes. By induction on the turns to go, with
`Turn` for the first of them and `Wrote.cons` to put it in front. -/
theorem inodeWriteFrom_cases {Q : Prop} (halloc : c.AllocOr base Q) {offset end' : Nat}
    (hoe : offset ≤ end') (hend : end' < inodeMaxBytes) (n : Nat) {i : Nat} {src : List UInt8}
    (h : c.Owns base inode.entry s) (hi : i % blockSize = 0) (hoffset : offset < i + blockSize)
    (hturns : end' < i + n * blockSize) (hlast : i + n * blockSize ≤ end' + blockSize)
    (hlen : src.length = end' - max i offset) (modify : Bool) :
    (∃ inode' modify' t, inodeWriteFrom cache offset end' n i src inode modify s =
        .ok (inode', modify', t) ∧ c.Owns base inode'.entry t ∧
      c.Wrote base (max i offset) end' src inode s inode' t ∧
        (modify' = true ∨ modify' = modify ∧ inode' = inode)) ∨
    (Q ∧ ∃ e, inodeWriteFrom cache offset end' n i src inode modify s = .error e) := by
  induction n generalizing i src inode modify s with
  | zero =>
    refine .inl ⟨inode, modify, s, rfl, h, ?_, .inr ⟨rfl, rfl⟩⟩
    exact ⟨⟨_, _, rfl⟩, fun _ _ => rfl, fun _ _ ha => ha, fun _ _ _ _ => rfl, fun p hq hp => by omega⟩
  | succ n ih =>
    rw [Nat.succ_mul] at hturns hlast
    have hle : i ≤ end' := by omega
    rcases inodeWriteFrom_turn halloc offset end' h (Nat.lt_of_le_of_lt hle hend) src modify with
      ⟨b, inode₁, modify₁, s₁, s₂, hturn, hmod₁, hnext⟩ | ⟨hQ, e, herr⟩
    swap
    · exact .inr ⟨hQ, e, herr n⟩
    have hlen' : (turnRest offset end' i src).length = end' - max (i + blockSize) offset := by
      rw [turnRest, List.length_drop, hlen]
      omega
    rw [hnext n]
    rcases ih hturn.owns (by rw [Nat.add_mod_right, hi]) (by omega) (by omega) (by omega) hlen'
      modify₁ with ⟨inode', modify', t, hrest, howns, hwrote, hmod⟩ | hfail
    swap
    · exact .inr hfail
    refine .inl ⟨inode', modify', t, hrest, howns, .cons hi hle hend hoffset hoe hlen hturn.mapped
      hturn.mem hturn.used hwrote, ?_⟩
    rcases hmod with hmod | ⟨rfl, rfl⟩
    · exact .inl hmod
    · exact hmod₁

/-! ## The representation of a file

The entry in the memory, the entry in the block that stores the inode, and the bytes in the blocks
all belong to it. -/

/-- The in-memory inode and the blocks of the cache represent a file. `base` are the blocks of
others, among them the block that stores the inode. -/
structure Represents (c : cache.Ideal) (sb : SuperBlock) (base : Finset Nat) (inode : Inode)
    (s : σ) (file : File) : Prop where
  owns : c.Owns base inode.entry s
  valid : inode.valid = true
  inodeNo : 0 < inode.inodeNo ∧ inode.inodeNo < sb.numInodes.toNat
  block : toBlockNo sb inode.inodeNo ∈ base
  type : inode.entry.type ≠ inodeInvalid
  stored : (getEntry (c.mem s (toBlockNo sb inode.inodeNo)) inode.inodeNo).type ≠ inodeInvalid
  size : inode.entry.numBytes.toNat = file.length
  mapped : ∀ p < file.length, inode.entry.addr (c.mem s) (p / blockSize) ≠ 0
  content : ∀ p < file.length, inode.entry.fileByte (c.mem s) p = file.getD p 0

variable {sb : SuperBlock} {file : File}

/-- The size of a file fits `num_bytes`. -/
theorem Represents.length_lt (h : c.Represents sb base inode s file) : file.length < 65536 := by
  rw [← h.size]
  exact inode.entry.numBytes.toNat_lt

/-- The block of a byte is below the limit of the block map. -/
theorem Represents.div_lt (h : c.Represents sb base inode s file) {p : Nat} (hp : p < file.length) :
    p / blockSize < inodeMaxBlocks := by
  have := h.length_lt
  exact div_lt_inodeMaxBlocks (by rw [inodeMaxBytes_eq]; omega)

/-- `inode_sync` with `do_write` stores the entry at its place in the inode block. The other entries
of this block stay. -/
theorem inodeSync_write_spec (hvalid : inode.valid = true)
    (hno : 0 < inode.inodeNo ∧ inode.inodeNo < sb.numInodes.toNat)
    (hstored : (getEntry (c.mem s (toBlockNo sb inode.inodeNo)) inode.inodeNo).type ≠
      inodeInvalid) :
    ∃ t, inodeSync sb cache inode true s = .ok (inode, t) ∧
      c.mem t = Function.update (c.mem s) (toBlockNo sb inode.inodeNo)
        (putEntry (c.mem s (toBlockNo sb inode.inodeNo)) inode.inodeNo inode.entry) ∧
      c.used t = c.used s := by
  obtain ⟨s₁, hacq, hmem₁, hused₁⟩ := c.acquire (toBlockNo sb inode.inodeNo) s
  obtain ⟨s₂, hset, hmem₂, hused₂⟩ := c.setData (toBlockNo sb inode.inodeNo)
    (putEntry (c.mem s₁ (toBlockNo sb inode.inodeNo)) inode.inodeNo inode.entry) s₁
  obtain ⟨s₃, hsync, hmem₃, hused₃⟩ := c.sync (toBlockNo sb inode.inodeNo) s₂
  obtain ⟨s₄, hrel, hmem₄, hused₄⟩ := c.release (toBlockNo sb inode.inodeNo) s₃
  refine ⟨s₄, ?_, by rw [hmem₄, hmem₃, hmem₂, hmem₁], by rw [hused₄, hused₃, hused₂, hused₁]⟩
  have hrange : ¬ (inode.inodeNo = 0 ∨ sb.numInodes.toNat ≤ inode.inodeNo) := by omega
  rw [← hmem₁] at hstored
  simp only [inodeSync, hacq, ok_bind, c.data]
  rw [if_neg hrange, if_neg hstored, if_neg (by simp [hvalid]), if_pos trivial]
  simp only [hset, ok_bind, hsync, hrel]
  rfl

/-- A change to a block of others is no change to the indirect block. -/
theorem Owns.slot_write_base {x : Nat} {d : BlockData} (h : c.Owns base e s) (hx : x ∈ base)
    (hmem : c.mem t = Function.update (c.mem s) x d) (k : Nat) :
    e.slot (c.mem t) k = e.slot (c.mem s) k := by
  rw [hmem]
  refine InodeEntry.slot_update ?_ d k
  rintro hind rfl
  have hlast := h.apart inodeMaxBlocks (Nat.lt_succ_self _)
  rw [InodeEntry.slot_last] at hlast
  exact hlast (toNat_eq_zero.not.mpr hind) hx

/-- A change to a block of others does not show in the file: neither its addresses nor its data
blocks are in `base`. -/
theorem Owns.write_base {x : Nat} {d : BlockData} (h : c.Owns base e s) (hx : x ∈ base)
    (hmem : c.mem t = Function.update (c.mem s) x d) (hused : c.used t = c.used s) :
    c.Owns base e t ∧ (∀ k < inodeMaxBlocks, e.addr (c.mem t) k = e.addr (c.mem s) k) ∧
      ∀ p, p / blockSize < inodeMaxBlocks → e.addr (c.mem s) (p / blockSize) ≠ 0 →
        e.fileByte (c.mem t) p = e.fileByte (c.mem s) p := by
  have haddr : ∀ k < inodeMaxBlocks, e.addr (c.mem t) k = e.addr (c.mem s) k := by
    intro k hk
    rw [← InodeEntry.slot_of_lt hk, ← InodeEntry.slot_of_lt hk, h.slot_write_base hx hmem]
  refine ⟨?_, haddr, ?_⟩
  · unfold Owns
    rw [hused]
    exact Slots.congr h fun k _ => h.slot_write_base hx hmem k
  · intro p hp ha
    have hne : e.addr (c.mem s) (p / blockSize) ≠ x := by
      rintro rfl
      exact h.addr_notMem_base hp ha hx
    rw [InodeEntry.fileByte, haddr _ hp, hmem, Function.update_of_ne hne]
    rfl

/-- Storing the entry of an inode. The block it goes to is in `base`, so that the data blocks of the
file are not touched. -/
theorem Represents.store (inode : Inode) (howns : c.Owns base inode.entry s) (hvalid : inode.valid = true)
    (hno : 0 < inode.inodeNo ∧ inode.inodeNo < sb.numInodes.toNat)
    (hblock : toBlockNo sb inode.inodeNo ∈ base) (htype : inode.entry.type ≠ inodeInvalid)
    (hstored : (getEntry (c.mem s (toBlockNo sb inode.inodeNo)) inode.inodeNo).type ≠ inodeInvalid)
    (hsize : inode.entry.numBytes.toNat = file.length)
    (hmapped : ∀ p < file.length, inode.entry.addr (c.mem s) (p / blockSize) ≠ 0)
    (hcontent : ∀ p < file.length, inode.entry.fileByte (c.mem s) p = file.getD p 0) :
    ∃ t, inodeSync sb cache inode true s = .ok (inode, t) ∧ c.Represents sb base inode t file := by
  obtain ⟨t, hsync, hmem, hused⟩ := inodeSync_write_spec hvalid hno hstored
  obtain ⟨howns', haddr, hbyte⟩ := howns.write_base hblock hmem hused
  have hmax : ∀ p < file.length, p / blockSize < inodeMaxBlocks := by
    intro p hp
    have := inode.entry.numBytes.toNat_lt
    exact div_lt_inodeMaxBlocks (by rw [inodeMaxBytes_eq]; omega)
  refine ⟨t, hsync, howns', hvalid, hno, hblock, htype, ?_, hsize, ?_, ?_⟩
  · rw [hmem, Function.update_self, getEntry_putEntry, if_pos rfl]
    exact htype
  · intro p hp
    rw [haddr _ (hmax p hp)]
    exact hmapped p hp
  · intro p hp
    rw [hbyte p (hmax p hp) (hmapped p hp)]
    exact hcontent p hp

/-- `inode_write` runs its loop, and then stores the entry if it has changed. -/
theorem inodeWrite_eq_loop (sb : SuperBlock) {src : List UInt8} {offset : Nat}
    (hoffset : offset ≤ inode.entry.numBytes.toNat) (hend : offset + src.length ≤ inodeMaxBytes) :
    inodeWrite sb cache inode src offset s = (do
      let (inode₁, modify, s₁) ← inodeWriteFrom cache offset (offset + src.length)
        ((offset + src.length - roundDown offset) / blockSize + 1) (roundDown offset) src inode false s
      if modify = true ∨ inode₁.entry.numBytes.toNat < offset + src.length then
        inodeSync sb cache (inode₁.setNumBytes
          (.ofNat (max (offset + src.length) inode₁.entry.numBytes.toNat))) true s₁
      else return (inode₁, s₁)) := by
  have hmod : (offset + src.length) % 2 ^ 64 = offset + src.length := by
    rw [inodeMaxBytes_eq] at hend
    exact Nat.mod_eq_of_lt (by omega)
  simp only [Fs.inodeWrite, hmod]
  rw [kassert_of hoffset, ok_bind, kassert_of hend, ok_bind,
    kassert_of (Nat.le_add_right offset src.length), ok_bind]

/-- The call returns when its loop does: the checks in front of it are about the range only, and
what comes after it stores the entry if the size or an address has changed. -/
theorem inodeWrite_of_loop (sb : SuperBlock) {src : List UInt8} {offset : Nat} {inode₁ : Inode}
    {modify : Bool} {s₁ : σ} (hoffset : offset ≤ inode.entry.numBytes.toNat)
    (hend : offset + src.length ≤ inodeMaxBytes)
    (hloop : inodeWriteFrom cache offset (offset + src.length)
      ((offset + src.length - roundDown offset) / blockSize + 1) (roundDown offset) src inode false
        s = .ok (inode₁, modify, s₁)) :
    inodeWrite sb cache inode src offset s =
      if modify = true ∨ inode₁.entry.numBytes.toNat < offset + src.length then
        inodeSync sb cache (inode₁.setNumBytes
          (.ofNat (max (offset + src.length) inode₁.entry.numBytes.toNat))) true s₁
      else .ok (inode₁, s₁) := by
  rw [inodeWrite_eq_loop sb hoffset hend, hloop]
  rfl

/-- The call fails when its loop does. -/
theorem inodeWrite_of_loop_error (sb : SuperBlock) {src : List UInt8} {offset : Nat} {e : Stop}
    (hoffset : offset ≤ inode.entry.numBytes.toNat) (hend : offset + src.length ≤ inodeMaxBytes)
    (hloop : inodeWriteFrom cache offset (offset + src.length)
      ((offset + src.length - roundDown offset) / blockSize + 1) (roundDown offset) src inode false
        s = .error e) : inodeWrite sb cache inode src offset s = .error e := by
  rw [inodeWrite_eq_loop sb hoffset hend, hloop]
  rfl

/-- The block in which `offset` lies starts there. -/
theorem roundDown_spec (offset : Nat) : roundDown offset ≤ offset ∧
    offset < roundDown offset + blockSize ∧ roundDown offset % blockSize = 0 := by
  unfold roundDown blockSize
  omega

/-- The whole loop of `inode_write` runs to its end, or an allocation in it fails. There is no other
way out of it. -/
theorem inodeWrite_loop_cases {Q : Prop} (halloc : c.AllocOr base Q)
    (h : c.Owns base inode.entry s) {src : List UInt8} {offset : Nat}
    (hend : offset + src.length < inodeMaxBytes) :
    (∃ inode' modify t, inodeWriteFrom cache offset (offset + src.length)
        ((offset + src.length - roundDown offset) / blockSize + 1) (roundDown offset) src inode false
          s = .ok (inode', modify, t) ∧ c.Owns base inode'.entry t ∧
      c.Wrote base offset (offset + src.length) src inode s inode' t ∧
        (modify = true ∨ inode' = inode)) ∨
    (Q ∧ ∃ e, inodeWriteFrom cache offset (offset + src.length)
        ((offset + src.length - roundDown offset) / blockSize + 1) (roundDown offset) src inode false
          s = .error e) := by
  obtain ⟨hle, hlt, hmod⟩ := roundDown_spec offset
  have hmax : max (roundDown offset) offset = offset := Nat.max_eq_right hle
  rcases inodeWriteFrom_cases halloc (Nat.le_add_right offset src.length) hend
    ((offset + src.length - roundDown offset) / blockSize + 1) h hmod hlt
    (by unfold blockSize at *; omega) (by unfold blockSize at *; omega)
    (show src.length = _ by omega) false with ⟨inode', modify, t, hloop, howns, hwrote, hsame⟩ | hfail
  · rw [hmax] at hwrote
    refine .inl ⟨inode', modify, t, hloop, howns, hwrote, ?_⟩
    exact hsame.imp_right fun hsame => hsame.2
  · exact .inr hfail

/-- `inode_write` overlays its bytes. What the loop has written is read off byte by byte, and the
new size is the larger of the old one and the end of the write. -/
theorem Represents.inodeWrite_cases {Q : Prop} (h : c.Represents sb base inode s file)
    (halloc : c.AllocOr base Q) {offset : Nat} {src : List UInt8}
    (hoffset : offset ≤ file.length) (hend : offset + src.length ≤ 65535) :
    (∃ inode' t, inodeWrite sb cache inode src offset s = .ok (inode', t) ∧
      c.Represents sb base inode' t (file.write offset src)) ∨
    (Q ∧ ∃ e, inodeWrite sb cache inode src offset s = .error e) := by
  have hmaxBytes : offset + src.length < inodeMaxBytes := by
    rw [inodeMaxBytes_eq]
    omega
  rcases inodeWrite_loop_cases halloc h.owns hmaxBytes with
    ⟨inode₁, modify, s₁, hloop, howns, hwrote, -⟩ | ⟨hQ, e, hfail⟩
  swap
  · exact .inr ⟨hQ, e, inodeWrite_of_loop_error sb (h.size ▸ hoffset) hmaxBytes.le hfail⟩
  have hlen : (file.write offset src).length = max file.length (offset + src.length) :=
    file.length_write hoffset src
  -- the blocks hold the new file, whether or not the entry is stored next
  have hmapped : ∀ p < (file.write offset src).length,
      inode₁.entry.addr (c.mem s₁) (p / blockSize) ≠ 0 := by
    intro p hp
    by_cases hin : offset ≤ p ∧ p < offset + src.length
    · exact (hwrote.inside p hin.1 hin.2).1
    · have hp' : p < file.length := by omega
      exact hwrote.mapped _ (h.div_lt hp') (h.mapped p hp')
  have hcontent : ∀ p < (file.write offset src).length,
      inode₁.entry.fileByte (c.mem s₁) p = (file.write offset src).getD p 0 := by
    intro p hp
    rw [file.getD_write hoffset]
    by_cases hin : offset ≤ p ∧ p < offset + src.length
    · rw [if_pos hin, (hwrote.inside p hin.1 hin.2).2]
    · have hp' : p < file.length := by omega
      rw [if_neg hin, hwrote.outside p (h.div_lt hp') (h.mapped p hp') (by omega), h.content p hp']
  have hstored : (getEntry (c.mem s₁ (toBlockNo sb inode.inodeNo)) inode.inodeNo).type ≠
      inodeInvalid := by
    rw [hwrote.base _ h.block]
    exact h.stored
  have hwrite := inodeWrite_of_loop sb (h.size ▸ hoffset) hmaxBytes.le hloop
  obtain ⟨addrs, indirect, rfl⟩ := hwrote.head
  dsimp only at hwrite hmapped hcontent howns
  rw [hwrite]
  have hsize : inode.entry.numBytes.toNat = file.length := h.size
  split
  · next hgrow =>
    rw [hsize]
    have hnum : (UInt16.ofNat (max (offset + src.length) file.length)).toNat =
        (file.write offset src).length := by
      have := h.length_lt
      rw [UInt16.toNat_ofNat', Nat.mod_eq_of_lt (by omega), hlen, Nat.max_comm]
    obtain ⟨t, hsync, hrep⟩ := Represents.store
      (Inode.setNumBytes
        { inode with entry := { inode.entry with addrs := addrs, indirect := indirect } }
        (.ofNat (max (offset + src.length) file.length)))
      howns h.valid h.inodeNo h.block h.type hstored hnum hmapped hcontent
    exact .inl ⟨_, t, hsync, hrep⟩
  · next hgrow =>
    have hfile : (file.write offset src).length = file.length := by omega
    exact .inl ⟨_, s₁, rfl, howns, h.valid, h.inodeNo, h.block, h.type, hstored,
      by rw [hfile]; exact hsize, hmapped, hcontent⟩

/-- With enough free blocks `inode_write` does not fail. -/
theorem Represents.inodeWrite (h : c.Represents sb base inode s file)
    (hroom : numSlots ≤ (c.pool \ base).card) {offset : Nat} {src : List UInt8}
    (hoffset : offset ≤ file.length) (hend : offset + src.length ≤ 65535) :
    ∃ inode' t, inodeWrite sb cache inode src offset s = .ok (inode', t) ∧
      c.Represents sb base inode' t (file.write offset src) :=
  (h.inodeWrite_cases (allocOr_of_room hroom) hoffset hend).resolve_right fun hfail => hfail.1

/-! ## Reading

`fileSlice` is what the loop has copied so far, read through the block map. -/

/-- The bytes of the file from `q` on. -/
def fileSlice (e : InodeEntry) (mem : Disk) (q n : Nat) : List UInt8 :=
  (List.range n).map fun j => e.fileByte mem (q + j)

/-- The part of a block that one turn of the loop of `inode_read` copies. -/
theorem slice_eq_fileSlice (e : InodeEntry) (mem : Disk) {i start n : Nat} (hi : i % blockSize = 0)
    (hn : start + n ≤ blockSize) :
    (mem (e.addr mem (i / blockSize))).slice start n = fileSlice e mem (i + start) n := by
  apply List.map_congr_left
  intro j hj
  have hj : j < n := List.mem_range.mp hj
  have hdiv : (i + start + j) / blockSize = i / blockSize := by
    unfold blockSize at *
    omega
  have hmod : (i + start + j) % blockSize = start + j := by
    unfold blockSize at *
    omega
  rw [InodeEntry.fileByte, hdiv, hmod]

/-- Two pieces that follow each other. -/
theorem fileSlice_append (e : InodeEntry) (mem : Disk) (q m n : Nat) :
    fileSlice e mem q m ++ fileSlice e mem (q + m) n = fileSlice e mem q (m + n) := by
  simp only [fileSlice, List.range_add, List.map_append, List.map_map]
  congr 1
  apply List.map_congr_left
  intro j _
  simp only [Function.comp, Nat.add_assoc]

/-- The loop of `inode_read` copies the rest of its bytes. By induction on the turns to go; the
bytes of one turn and those of the rest are adjacent. -/
theorem inodeReadFrom_spec {offset end' : Nat} (hoe : offset ≤ end') (hend : end' < inodeMaxBytes)
    (hmapped : ∀ p < end', inode.entry.addr (c.mem s) (p / blockSize) ≠ 0) (n : Nat) {i : Nat}
    (hi : i % blockSize = 0) (hoffset : offset < i + blockSize)
    (hturns : end' ≤ i + n * blockSize) (hlast : n = 0 ∨ i + n * blockSize < end' + blockSize) :
    ∃ t, inodeReadFrom cache inode offset end' n i s =
        .ok (fileSlice inode.entry (c.mem s) (max i offset) (end' - max i offset), t) ∧
      c.mem t = c.mem s ∧ c.used t = c.used s := by
  induction n generalizing i s with
  | zero =>
    have hempty : end' - max i offset = 0 := by omega
    refine ⟨s, ?_, rfl, rfl⟩
    rw [hempty]
    rfl
  | succ n ih =>
    have hle : i < end' := by
      rw [Nat.succ_mul] at hlast
      omega
    -- None of the three calls of a turn changes a byte.
    obtain ⟨s₁, hmap, hmem₁, hused₁⟩ := inodeMap2_spec (Nat.lt_trans hle hend) (hmapped i hle)
    obtain ⟨s₂, hacq, hmem₂, hused₂⟩ := c.acquire (inode.entry.addr (c.mem s) (i / blockSize)) s₁
    obtain ⟨s₃, hrel, hmem₃, hused₃⟩ := c.release (inode.entry.addr (c.mem s) (i / blockSize)) s₂
    have hmem : c.mem s₃ = c.mem s := by rw [hmem₃, hmem₂, hmem₁]
    obtain ⟨t, hrest, hmemt, husedt⟩ := ih (i := i + blockSize) (s := s₃) (by rwa [hmem])
      (by rw [Nat.add_mod_right, hi]) (by omega) (by rw [Nat.succ_mul] at hturns; omega)
      (by rw [Nat.succ_mul] at hlast; omega)
    refine ⟨t, ?_, hmemt.trans hmem, by rw [husedt, hused₃, hused₂, hused₁]⟩
    have hdata : c.mem s₂ = c.mem s := hmem₂.trans hmem₁
    simp only [inodeReadFrom, hmap, ok_bind, hacq, c.bytes, hrel, hrest]
    rw [hmem, hdata, slice_eq_fileSlice inode.entry (c.mem s) hi (by omega)]
    have hq : i + (max i offset - i) = max i offset := by omega
    rw [hq]
    by_cases hnext : end' ≤ i + blockSize
    · -- this was the last turn
      have hempty : end' - max (i + blockSize) offset = 0 := by omega
      have hlen : min (i + blockSize) end' - i - (max i offset - i) = end' - max i offset := by
        omega
      have hnil : fileSlice inode.entry (c.mem s) (max (i + blockSize) offset) 0 = [] := rfl
      rw [hempty, hlen, hnil, List.append_nil]
      rfl
    -- The bytes of this turn end where those of the rest begin.
    · have hstart : max (i + blockSize) offset =
          max i offset + (min (i + blockSize) end' - i - (max i offset - i)) := by omega
      have hlen : end' - max i offset = (min (i + blockSize) end' - i - (max i offset - i)) +
          (end' - max (i + blockSize) offset) := by omega
      rw [hlen, ← fileSlice_append, ← hstart]
      rfl

/-- The bytes in the blocks are those of the abstract file, wherever the range begins and ends. -/
theorem Represents.fileSlice (h : c.Represents sb base inode s file) {offset count : Nat}
    (hcount : offset + count ≤ file.length) :
    fileSlice inode.entry (c.mem s) offset count = file.read offset count := by
  refine List.ext_getElem? fun j => ?_
  simp only [Ideal.fileSlice, File.read, List.getElem?_map]
  by_cases hj : j < count
  · rw [List.getElem?_take_of_lt hj, List.getElem?_drop, List.getElem?_range hj, Option.map_some,
      h.content _ (by omega), List.getD_eq_getElem?_getD, List.getElem?_eq_getElem (by omega),
      Option.getD_some]
  · rw [List.getElem?_eq_none (by simp; omega), List.getElem?_eq_none (by simp; omega)]
    rfl

/-- `inode_read` returns the bytes of the file, and leaves the file as it was. The induction of its
loop is in `inodeReadFrom_spec`. -/
theorem Represents.inodeRead (h : c.Represents sb base inode s file) {offset count : Nat}
    (hcount : offset + count ≤ file.length) :
    ∃ t, inodeRead cache inode offset count s = .ok (file.read offset count, t) ∧
      c.Represents sb base inode t file := by
  have hlt := h.length_lt
  have hmod : (offset + count) % 2 ^ 64 = offset + count := Nat.mod_eq_of_lt (by omega)
  have hround := roundDown_spec offset
  have hmapped : ∀ p < offset + count, inode.entry.addr (c.mem s) (p / blockSize) ≠ 0 :=
    fun p hp => h.mapped p (by omega)
  obtain ⟨t, hloop, hmem, hused⟩ := inodeReadFrom_spec (Nat.le_add_right offset count)
    (by rw [inodeMaxBytes_eq]; omega) hmapped
    ((offset + count - roundDown offset + (blockSize - 1)) / blockSize) hround.2.2 hround.2.1
    (by unfold blockSize at *; omega) (by unfold blockSize at *; omega)
  refine ⟨t, ?_, h.owns.of_eq hmem hused, h.valid, h.inodeNo, h.block, h.type, by
    rw [hmem]; exact h.stored, h.size, by rw [hmem]; exact h.mapped, by
    rw [hmem]; exact h.content⟩
  simp only [Fs.inodeRead, hmod]
  rw [kassert_of (h.size ▸ Nat.le_trans (Nat.le_add_right offset count) hcount), ok_bind,
    kassert_of (h.size ▸ hcount), ok_bind, kassert_of (Nat.le_add_right offset count), ok_bind,
    hloop, Nat.max_eq_right hround.1, Nat.add_sub_cancel_left, h.fileSlice hcount]

/-! ## Truncation

`inode_clear` gives back the direct blocks, then those in the indirect block, then this one. In
between, the entry in memory still names blocks that are free already, so the invariant is on the
slots as the allocator sees them. -/

/-- One turn of the first loop of `inode_clear` empties a slot. Its block goes back to the free
ones, and the blocks of others keep their content. -/
theorem clearDirect_spec (h : c.Owns base inode.entry s) (hvalid : inode.valid = true)
    (i : Fin inodeNumDirect) :
    ∃ t, clearDirect cache (inode, s) i = .ok (inode.setAddr i 0, t) ∧
      c.Owns base (inode.setAddr i 0).entry t ∧
      ∀ x, x ∈ base ∨ x = inode.entry.indirect.toNat → c.mem t x = c.mem s x := by
  have hi : i.val < 12 := i.isLt
  have hmax : i.val < inodeMaxBlocks := by
    unfold inodeMaxBlocks
    omega
  by_cases haddr : inode.entry.addrs i = 0
  -- There is no block, and clearing the address changes nothing.
  · have hsame : inode.setAddr i 0 = inode := by
      rw [Inode.setAddr, ← haddr, Function.update_eq_self]
    refine ⟨s, ?_, by rwa [hsame], fun _ _ => rfl⟩
    rw [clearDirect, if_neg (not_not.mpr haddr), hsame]
    rfl
  · have hslot : inode.entry.slot (c.mem s) i = (inode.entry.addrs i).toNat := by
      rw [InodeEntry.slot_of_lt hmax, InodeEntry.addr_direct i.isLt]
    have hne : inode.entry.slot (c.mem s) i ≠ 0 := by
      rw [hslot]
      exact toNat_eq_zero.not.mpr haddr
    obtain ⟨t, hfree, hmem, hused⟩ := c.free _ s (h.mem (Nat.lt_succ_of_lt hmax) hne)
    refine ⟨t, ?_, ?_, ?_⟩
    · rw [hslot] at hfree
      simp only [clearDirect, hvalid, ne_eq, haddr, not_false_eq_true, if_true, hfree, ok_bind]
      rfl
    · unfold Owns
      rw [hused]
      refine (Slots.drop h (Nat.lt_succ_of_lt hmax) hne).congr ?_
      intro j _
      -- The indirect block is another one, so the slots in it are as they were.
      have hsame : inode.entry.slot (c.mem t) = inode.entry.slot (c.mem s) := by
        funext k
        refine InodeEntry.slot_congr (fun hind => hmem _ ?_) k
        rw [InodeEntry.slot_of_lt hmax] at hne ⊢
        exact (h.addr_ne_indirect hmax hne).symm
      rw [slot_setAddr, hsame]
      rfl
    · rintro x (hx | rfl)
      · apply hmem x
        rintro rfl
        exact h.apart i (Nat.lt_succ_of_lt hmax) hne hx
      · apply hmem _
        rw [InodeEntry.slot_of_lt hmax] at hne ⊢
        exact (h.addr_ne_indirect hmax hne).symm

/-- The inode without the direct addresses in `l`. -/
def clearAddrs (inode : Inode) (l : List (Fin inodeNumDirect)) : Inode :=
  { inode with entry := { inode.entry with
      addrs := fun i => if i ∈ l then 0 else inode.entry.addrs i } }

/-- The first loop of `inode_clear` empties the slots it has come to. By induction on the list of
the indices, from its first one on. -/
theorem clearDirect_loop (h : c.Owns base inode.entry s) (hvalid : inode.valid = true)
    (l : List (Fin inodeNumDirect)) :
    ∃ t, l.foldlM (clearDirect cache) (inode, s) = .ok (clearAddrs inode l, t) ∧
      c.Owns base (clearAddrs inode l).entry t ∧
      ∀ x, x ∈ base ∨ x = inode.entry.indirect.toNat → c.mem t x = c.mem s x := by
  induction l generalizing inode s with
  | nil =>
    have hsame : clearAddrs inode [] = inode := by simp [clearAddrs]
    rw [hsame]
    exact ⟨s, rfl, h, fun _ _ => rfl⟩
  | cons i l ih =>
    obtain ⟨s₁, hturn, h₁, hbase₁⟩ := clearDirect_spec h hvalid i
    obtain ⟨t, hloop, ht, hbase⟩ := ih h₁ hvalid
    have hsame : clearAddrs (inode.setAddr i 0) l = clearAddrs inode (i :: l) := by
      simp only [clearAddrs, Inode.setAddr, Inode.mk.injEq, InodeEntry.mk.injEq, true_and, and_true]
      funext j
      by_cases hj : j = i
      · subst hj
        simp
      · simp [hj]
    rw [hsame] at hloop ht
    refine ⟨t, ?_, ht, fun x hx => (hbase x hx).trans (hbase₁ x hx)⟩
    rw [List.foldlM_cons, hturn, ok_bind, hloop]

/-- The second loop of `inode_clear` gives the blocks back without touching the indirect block, so
their slots are empty for the allocator only: `f` are the slots before the loop. -/
theorem clearIndirect_loop {f : Nat → Nat} {b : Nat} (h : Slots numSlots f base (c.used s))
    (hlast : f inodeMaxBlocks = b)
    (hf : ∀ i < inodeNumIndirect, f (inodeNumDirect + i) = ((c.mem s b).u32 i).toNat) (n : Nat)
    (hn : n ≤ inodeNumIndirect) :
    ∃ t, (List.range n).foldlM (clearIndirect cache b) s = .ok t ∧
      Slots numSlots (fun j => if inodeNumDirect ≤ j ∧ j < inodeNumDirect + n then 0 else f j) base
        (c.used t) ∧ c.mem t b = c.mem s b ∧ ∀ x ∈ base, c.mem t x = c.mem s x := by
  induction n with
  | zero =>
    refine ⟨s, rfl, h.congr fun j _ => if_neg (by omega), rfl, fun _ _ => rfl⟩
  | succ n ih =>
    obtain ⟨s₁, hloop, h₁, hmem₁, hbase₁⟩ := ih (by omega)
    -- The element to come is still in its slot.
    have hslot : (if inodeNumDirect ≤ inodeNumDirect + n ∧
        inodeNumDirect + n < inodeNumDirect + n then 0 else f (inodeNumDirect + n)) =
        ((c.mem s₁ b).u32 n).toNat := by
      rw [if_neg (by omega), hf n (by omega), hmem₁]
    have hlt : inodeNumDirect + n < inodeMaxBlocks := by
      unfold inodeMaxBlocks
      omega
    -- One slot more is empty after this turn.
    have hcongr : ∀ j, (if inodeNumDirect ≤ j ∧ j < inodeNumDirect + (n + 1) then 0 else f j) =
        Function.update (fun j => if inodeNumDirect ≤ j ∧ j < inodeNumDirect + n then 0 else f j)
          (inodeNumDirect + n) 0 j := by
      intro j
      by_cases hj : j = inodeNumDirect + n
      · subst hj
        rw [Function.update_self, if_pos (by omega)]
      · rw [Function.update_of_ne hj]
        congr 1
        simp only [eq_iff_iff]
        omega
    rw [List.range_succ, List.foldlM_append, hloop, ok_bind]
    simp only [List.foldlM_cons, List.foldlM_nil, bind_pure, clearIndirect, c.bytes, ok_bind]
    -- An element that is zero names no block.
    by_cases hentry : (c.mem s₁ b).u32 n = 0
    · refine ⟨s₁, by rw [if_neg (not_not.mpr hentry)]; rfl, h₁.congr fun j _ => ?_, hmem₁, hbase₁⟩
      rw [hcongr]
      by_cases hj : j = inodeNumDirect + n
      · subst hj
        rw [Function.update_self, hslot]
        exact (toNat_eq_zero.mpr hentry).symm
      · rw [Function.update_of_ne hj]
    · have hne := toNat_eq_zero.not.mpr hentry
      rw [← hslot] at hne
      obtain ⟨t, hfree, hmem, hused⟩ :=
        c.free _ s₁ (h₁.mem (k := inodeNumDirect + n) (Nat.lt_succ_of_lt hlt) hne)
      rw [hslot] at hfree hmem
      refine ⟨t, by rw [if_pos hentry, hfree], ?_, ?_, ?_⟩
      · rw [hused]
        exact (h₁.drop (Nat.lt_succ_of_lt hlt) hne).congr fun j _ => hcongr j
      · rw [hmem b ?_, hmem₁]
        intro heq
        -- The block that is freed is not the indirect one, as the two are in different slots.
        have hinj := h₁.inj (inodeNumDirect + n) (Nat.lt_succ_of_lt hlt) inodeMaxBlocks
          (Nat.lt_succ_self _) hne
        rw [hslot, ← heq, if_neg (by omega), hlast] at hinj
        exact absurd (hinj rfl) (by omega)
      · intro x hx
        rw [hmem x ?_, hbase₁ x hx]
        rintro rfl
        rw [← hslot] at hx
        exact h₁.apart _ (Nat.lt_succ_of_lt hlt) hne hx

/-- The indirect block is given back after the blocks it lists, or there is none. The list is still
read while its blocks are freed, and freeing a block does not change another one. -/
theorem freeIndirect_spec (h : c.Owns base inode.entry s) (hvalid : inode.valid = true)
    (haddrs : ∀ i, inode.entry.addrs i = 0) :
    ∃ t, freeIndirect cache inode s = .ok t ∧ c.used t = base ∧
      ∀ x ∈ base, c.mem t x = c.mem s x := by
  have hdirect : ∀ j < inodeNumDirect, inode.entry.slot (c.mem s) j = 0 := by
    intro j hj
    rw [InodeEntry.slot_of_lt (by unfold inodeMaxBlocks; omega), InodeEntry.addr_direct hj, haddrs]
    rfl
  unfold freeIndirect
  by_cases hind : inode.entry.indirect = 0
  · refine ⟨s, by rw [if_neg (by simp [hind])]; rfl, Slots.used_eq h ?_, fun _ _ => rfl⟩
    intro j hj
    by_cases hj' : j < inodeNumDirect
    · exact hdirect j hj'
    · exact InodeEntry.slot_of_no_indirect hj' hind
  · have hne := toNat_eq_zero.not.mpr hind
    generalize hb : inode.entry.indirect.toNat = b at *
    obtain ⟨s₁, hacq, hmem₁, hused₁⟩ := c.acquire b s
    have h₁ : Slots numSlots (inode.entry.slot (c.mem s)) base (c.used s₁) := hused₁ ▸ h
    have hlast : inode.entry.slot (c.mem s) inodeMaxBlocks = b := InodeEntry.slot_last.trans hb
    have hentries : ∀ i < inodeNumIndirect, inode.entry.slot (c.mem s) (inodeNumDirect + i) =
        ((c.mem s₁ b).u32 i).toNat := by
      intro i hi
      rw [InodeEntry.slot_indirect hind hi, hb, hmem₁]
    obtain ⟨s₂, hloop, h₂, -, hbase₂⟩ := clearIndirect_loop h₁ hlast hentries _ (Nat.le_refl _)
    obtain ⟨s₃, hrel, hmem₃, hused₃⟩ := c.release b s₂
    rw [← hused₃] at h₂
    -- The indirect block itself is in the last slot, which the loop does not come to.
    have hlast₂ : (if inodeNumDirect ≤ inodeMaxBlocks ∧
        inodeMaxBlocks < inodeNumDirect + inodeNumIndirect then 0
        else inode.entry.slot (c.mem s) inodeMaxBlocks) = b := by
      rw [if_neg (by unfold inodeMaxBlocks; omega), hlast]
    have hmem : b ∈ c.used s₃ := by
      have := h₂.mem (Nat.lt_succ_self inodeMaxBlocks)
      rw [hlast₂] at this
      exact this hne
    obtain ⟨t, hfree, hmemt, husedt⟩ := c.free b s₃ hmem
    refine ⟨t, ?_, ?_, ?_⟩
    · rw [if_pos ⟨hind, hvalid⟩]
      simp only [hacq, ok_bind, hloop, hrel, hfree]
    · have hdrop := h₂.drop (Nat.lt_succ_self inodeMaxBlocks) (by rwa [hlast₂])
      rw [hlast₂, ← husedt] at hdrop
      refine hdrop.used_eq fun j hj => ?_
      by_cases hj' : j = inodeMaxBlocks
      · rw [hj', Function.update_self]
      · rw [Function.update_of_ne hj']
        by_cases hj'' : j < inodeNumDirect
        · rw [if_neg (by omega), hdirect j hj'']
        · rw [if_pos (by unfold numSlots inodeMaxBlocks at *; omega)]
    · intro x hx
      -- No block of the others is the indirect block.
      have hxb : x ≠ b := by
        rintro rfl
        exact h.apart inodeMaxBlocks (Nat.lt_succ_self _) (by rwa [hlast]) (by rwa [hlast])
      rw [hmemt x hxb, hmem₃, hbase₂ x hx, hmem₁]

/-- An inode without addresses owns no block. -/
theorem owns_of_no_blocks {e : InodeEntry} (haddrs : ∀ i, e.addrs i = 0) (hind : e.indirect = 0)
    (hused : c.used s = base) : c.Owns base e s := by
  unfold Owns
  rw [hused]
  exact Slots.empty fun _ _ => InodeEntry.slot_of_no_blocks haddrs hind

/-- `inode_clear` gives the blocks of the inode back before it stores the entry. -/
theorem Owns.inodeClear (sb : SuperBlock) (h : c.Owns base inode.entry s)
    (hvalid : inode.valid = true) :
    ∃ t, inodeClear sb cache inode s = inodeSync sb cache inode.cleared true t ∧
      c.Owns base inode.cleared.entry t ∧ c.used t = base ∧ ∀ x ∈ base, c.mem t x = c.mem s x := by
  obtain ⟨s₁, hloop, h₁, hbase₁⟩ := clearDirect_loop h hvalid (List.finRange inodeNumDirect)
  obtain ⟨t, hfree, hused, hbase⟩ := freeIndirect_spec h₁ hvalid (by simp [clearAddrs])
  have hcleared : ((clearAddrs inode (List.finRange inodeNumDirect)).setIndirect 0).setNumBytes 0 =
      inode.cleared := by
    simp [clearAddrs, Inode.setIndirect, Inode.setNumBytes, Inode.cleared]
  refine ⟨t, ?_, owns_of_no_blocks (fun _ => rfl) rfl hused, hused, ?_⟩
  · simp only [Fs.inodeClear, hloop, ok_bind, hfree, hcleared]
  · exact fun x hx => (hbase x hx).trans (hbase₁ x (.inl hx))

/-- `inode_clear` empties the file and gives its blocks back. The inode stays allocated, with a size
of zero. -/
theorem Represents.inodeClear (h : c.Represents sb base inode s file) :
    ∃ inode' t, inodeClear sb cache inode s = .ok (inode', t) ∧
      c.Represents sb base inode' t [] := by
  obtain ⟨s₁, hclear, howns, -, hbase⟩ := h.owns.inodeClear sb h.valid
  have hstored : (getEntry (c.mem s₁ (toBlockNo sb inode.inodeNo)) inode.inodeNo).type ≠
      inodeInvalid := by
    rw [hbase _ h.block]
    exact h.stored
  have hsize : inode.cleared.entry.numBytes.toNat = ([] : File).length := rfl
  obtain ⟨t, hsync, hrep⟩ := Represents.store inode.cleared howns h.valid h.inodeNo h.block h.type
    hstored hsize (by simp) (by simp)
  exact ⟨_, t, hclear.trans hsync, hrep⟩

/-! ## A new inode

`inode_alloc` clears the entry, so a new inode has no blocks and no bytes. -/

/-- The inner loop of `inode_alloc` finds an inode of its block that is not in use. -/
theorem findFreeInode_eq_some {d : BlockData} {i n : Nat} (h : findFreeInode sb d i = some n) :
    1 < n ∧ n < sb.numInodes.toNat ∧ (getEntry d n).type = inodeInvalid ∧ i ≤ n ∧
      n < i + inodePerBlock := by
  simp only [findFreeInode, Option.map_eq_some_iff] at h
  obtain ⟨j, hfind, rfl⟩ := h
  have hj := List.mem_range.mp (List.mem_of_find?_eq_some hfind)
  have hfree := List.find?_some hfind
  simp only [decide_eq_true_eq] at hfree
  exact ⟨hfree.1, hfree.2.1, hfree.2.2, Nat.le_add_right i j, Nat.add_lt_add_left hj i⟩

/-- The inodes that the inner loop of `inode_alloc` looks at are stored in one block. -/
theorem toBlockNo_of_range (sb : SuperBlock) {i j : Nat} (hi : i % inodePerBlock = 0) (hle : i ≤ j)
    (hlt : j < i + inodePerBlock) : toBlockNo sb j = toBlockNo sb i := by
  have h8 : inodePerBlock = 8 := rfl
  rw [h8] at hi hlt
  unfold toBlockNo
  rw [h8, show j / 8 = i / 8 by omega]

/-- `inode_alloc` stores an empty entry for an inode that was free. By induction on the blocks to
go: those that were looked at before are as they were. -/
theorem inodeAllocFrom_spec (c : cache.Ideal) {type : UInt16} {k i n : Nat}
    (hi : i % inodePerBlock = 0) (h : inodeAllocFrom sb cache type k i s = .ok (n, t)) :
    1 < n ∧ n < sb.numInodes.toNat ∧
      (getEntry (c.mem s (toBlockNo sb n)) n).type = inodeInvalid ∧
      c.mem t = Function.update (c.mem s) (toBlockNo sb n) (putEntry (c.mem s (toBlockNo sb n)) n
        { InodeEntry.zero with type := type }) ∧ c.used t = c.used s := by
  induction k generalizing i s with
  | zero => cases h
  | succ k ih =>
    obtain ⟨s₁, hacq, hmem₁, hused₁⟩ := c.acquire (toBlockNo sb i) s
    simp only [inodeAllocFrom, hacq, ok_bind, c.data] at h
    cases hfind : findFreeInode sb (c.mem s₁ (toBlockNo sb i)) i with
    | none =>
      obtain ⟨s₂, hrel, hmem₂, hused₂⟩ := c.release (toBlockNo sb i) s₁
      simp only [hfind, hrel, ok_bind] at h
      have hrest := ih (by rw [Nat.add_mod_right, hi]) h
      rwa [hmem₂, hmem₁, hused₂, hused₁] at hrest
    | some m =>
      obtain ⟨s₂, hset, hmem₂, hused₂⟩ := c.setData (toBlockNo sb i)
        (putEntry (c.mem s₁ (toBlockNo sb i)) m { InodeEntry.zero with type := type }) s₁
      obtain ⟨s₃, hsync, hmem₃, hused₃⟩ := c.sync (toBlockNo sb i) s₂
      obtain ⟨s₄, hrel, hmem₄, hused₄⟩ := c.release (toBlockNo sb i) s₃
      simp only [hfind, hset, hsync, hrel, ok_bind] at h
      cases h
      obtain ⟨hn1, hn, hfree, hin, hni⟩ := findFreeInode_eq_some hfind
      have hblock := toBlockNo_of_range sb hi hin hni
      exact ⟨hn1, hn, by rwa [hblock, ← hmem₁], by rw [hblock, hmem₄, hmem₃, hmem₂, hmem₁],
        by rw [hused₄, hused₃, hused₂, hused₁]⟩

/-- An inode that was just allocated and loaded is an empty file: its entry has no address, so it
has no block to share. -/
theorem inodeAlloc_represents (c : cache.Ideal) {type : UInt16} {n : Nat}
    (hused : ∀ i < sb.numInodes.toNat, toBlockNo sb i ∈ c.used s)
    (h : inodeAlloc sb cache type s = .ok (n, t)) (junk : InodeEntry) :
    ∃ inode u, inodeLoad sb cache n junk t = .ok (inode, u) ∧
      c.Represents sb (c.used s) inode u [] := by
  simp only [inodeAlloc, bind_eq_ok, kassert_eq_ok] at h
  obtain ⟨-, htype, h⟩ := h
  obtain ⟨hn1, hn, -, hmem, husedt⟩ := inodeAllocFrom_spec c rfl h
  have hentry : getEntry (c.mem t (toBlockNo sb n)) n = { InodeEntry.zero with type := type } := by
    rw [hmem, Function.update_self, getEntry_putEntry, if_pos rfl]
  obtain ⟨s₁, hacq, hmem₁, hused₁⟩ := c.acquire (toBlockNo sb n) t
  obtain ⟨u, hrel, hmem₂, hused₂⟩ := c.release (toBlockNo sb n) s₁
  have hmemu : c.mem u = c.mem t := hmem₂.trans hmem₁
  refine ⟨⟨n, true, { InodeEntry.zero with type := type }⟩, u, ?_, ?_⟩
  · have hsync : inodeSync sb cache ⟨n, false, junk⟩ false t =
        .ok (⟨n, true, { InodeEntry.zero with type := type }⟩, u) := by
      simp only [inodeSync, hacq, ok_bind, c.data, hmem₁, hentry]
      rw [if_neg (by omega), if_neg htype, if_pos trivial, hrel, ok_bind]
      rfl
    simp only [inodeLoad]
    rw [kassert_of (by omega), ok_bind, kassert_of hn, ok_bind, hsync, ok_bind]
    exact if_neg (by omega)
  · constructor
    case owns =>
      unfold Owns
      rw [hused₂, hused₁, husedt]
      refine Slots.empty fun k hk => ?_
      by_cases hk' : k < inodeNumDirect
      · rw [InodeEntry.slot_of_lt (by unfold inodeMaxBlocks; omega), InodeEntry.addr_direct hk']
        rfl
      · exact InodeEntry.slot_of_no_indirect hk' rfl
    case valid => rfl
    case inodeNo => exact ⟨by dsimp only; omega, hn⟩
    case block => exact hused n hn
    case type => exact htype
    case stored =>
      dsimp only
      rw [hmemu, hentry]
      exact htype
    case size => rfl
    case mapped => simp
    case content => simp

end BlockCache.Ideal

/-! ## Sequences of calls

The file system on one side, a list of bytes on the other. -/

namespace Inode

variable {σ : Type}

/-- One call on a file: what it returns, the inode and the state of the cache. Only a read returns
bytes. -/
def call (sb : SuperBlock) (cache : BlockCache σ) (inode : Inode) (s : σ) :
    FileOp → Except Stop (List UInt8 × Inode × σ)
  | .write offset bytes => do
    let (inode, s) ← inodeWrite sb cache inode bytes offset s
    return ([], inode, s)
  | .read offset count => do
    let (bytes, s) ← inodeRead cache inode offset count s
    return (bytes, inode, s)
  | .clear => do
    let (inode, s) ← inodeClear sb cache inode s
    return ([], inode, s)

/-- A sequence of calls, each on the inode and the state that the one before has left, with what
each of them returned. -/
def run (sb : SuperBlock) (cache : BlockCache σ) (inode : Inode) (s : σ) :
    List FileOp → Except Stop (List (List UInt8) × Inode × σ)
  | [] => .ok ([], inode, s)
  | op :: ops => do
    let (result, inode, s) ← inode.call sb cache s op
    let (results, inode, s) ← inode.run sb cache s ops
    return (result :: results, inode, s)

end Inode

namespace BlockCache.Ideal

variable {σ : Type} {cache : BlockCache σ} {c : cache.Ideal} {base : Finset Nat} {inode : Inode}
  {s : σ} {sb : SuperBlock} {file : File}

/-- One call: the code returns what the abstract file gives for it, and represents the next file
afterwards. -/
theorem Represents.call (h : c.Represents sb base inode s file)
    (hroom : numSlots ≤ (c.pool \ base).card) {op : FileOp} (hlegal : file.Legal op) :
    ∃ inode' t, inode.call sb cache s op = .ok (file.result op, inode', t) ∧
      c.Represents sb base inode' t (file.next op) := by
  cases op with
  | write offset bytes =>
    obtain ⟨inode', t, hrun, hrep⟩ := h.inodeWrite hroom hlegal.1 hlegal.2
    exact ⟨inode', t, by simp only [Inode.call, hrun, ok_bind]; rfl, hrep⟩
  | read offset count =>
    obtain ⟨t, hrun, hrep⟩ := h.inodeRead hlegal
    exact ⟨inode, t, by simp only [Inode.call, hrun, ok_bind]; rfl, hrep⟩
  | clear =>
    obtain ⟨inode', t, hrun, hrep⟩ := h.inodeClear
    exact ⟨inode', t, by simp only [Inode.call, hrun, ok_bind]; rfl, hrep⟩

/-- A sequence of calls, by induction over it. Each call leaves a file that the next one begins
with. -/
theorem Represents.run (h : c.Represents sb base inode s file)
    (hroom : numSlots ≤ (c.pool \ base).card) {ops : List FileOp} (hlegal : file.LegalRun ops) :
    ∃ inode' t, inode.run sb cache s ops = .ok ((file.run ops).1, inode', t) ∧
      c.Represents sb base inode' t (file.run ops).2 := by
  induction ops generalizing inode s file with
  | nil => exact ⟨inode, s, rfl, h⟩
  | cons op ops ih =>
    obtain ⟨inode₁, s₁, hcall, h₁⟩ := h.call hroom hlegal.1
    obtain ⟨inode', t, hrun, hrep⟩ := ih h₁ hlegal.2
    refine ⟨inode', t, ?_, hrep⟩
    simp only [Inode.run, hcall, ok_bind, hrun]
    rfl

end BlockCache.Ideal

/-- A new inode behaves as a byte array, for every sequence of calls that stay in the file and below
65536 bytes: no assertion fails, every read returns the bytes of the abstract file, and `num_bytes`
is its length. The cache needs a block to spare for each slot of the inode. -/
theorem inode_refines_file {σ : Type} {cache : BlockCache σ} (c : cache.Ideal) (sb : SuperBlock)
    (s : σ) (hused : ∀ i < sb.numInodes.toNat, toBlockNo sb i ∈ c.used s)
    (hroom : numSlots ≤ (c.pool \ c.used s).card) {type : UInt16} {n : Nat} {t : σ}
    (halloc : inodeAlloc sb cache type s = .ok (n, t)) (junk : InodeEntry) :
    ∃ inode u, inodeLoad sb cache n junk t = .ok (inode, u) ∧
      ∀ ops, File.LegalRun [] ops → ∃ inode' v,
        inode.run sb cache u ops = .ok ((File.run [] ops).1, inode', v) ∧
          inode'.entry.numBytes.toNat = (File.run [] ops).2.length := by
  obtain ⟨inode, u, hload, hrep⟩ := BlockCache.Ideal.inodeAlloc_represents c hused halloc junk
  refine ⟨inode, u, hload, ?_⟩
  intro ops hlegal
  obtain ⟨inode', v, hrun, hrep'⟩ := hrep.run hroom hlegal
  exact ⟨inode', v, hrun, hrep'.size⟩

/-- The state of `MockBlockCache`, the cache of the inode tests. -/
structure MockState where
  mem : Disk
  used : Finset Nat

/-- `MockBlockCache` with 141 data blocks from block 1000 on. It allocates the first block that is
not in use and panics when there is none. -/
def mockCache : BlockCache MockState where
  acquire _ s := .ok s
  release _ s := .ok s
  sync _ s := .ok s
  alloc s :=
    match (List.range' 1000 numSlots).find? (· ∉ s.used) with
    | some b => .ok (b, ⟨Function.update s.mem b .zero, insert b s.used⟩)
    | none => .error (.panic "no free block")
  free b s :=
    if b ∈ s.used then .ok { s with used := s.used.erase b }
    else .error (.panic "free unused block")
  data b s := .ok (s.mem b)
  setData b d s := .ok { s with mem := Function.update s.mem b d }
  bytes b s := .ok (s.mem b)
  setBytes b d s := .ok { s with mem := Function.update s.mem b d }

/-- The mock works as documented. Its blocks are plain content, and what is stored is read back. -/
def mockCacheIdeal : mockCache.Ideal where
  mem := MockState.mem
  used := MockState.used
  pool := (List.range' 1000 numSlots).toFinset
  pool_u32 b hb := by
    simp only [List.mem_toFinset, List.mem_range'_1] at hb
    unfold numSlots inodeMaxBlocks inodeNumDirect inodeNumIndirect blockSize at hb
    omega
  acquire b s := ⟨s, rfl, rfl, rfl⟩
  release b s := ⟨s, rfl, rfl, rfl⟩
  sync b s := ⟨s, rfl, rfl, rfl⟩
  data b s := rfl
  setData b d s := ⟨_, rfl, rfl, rfl⟩
  bytes b s := rfl
  setBytes b d s := ⟨_, rfl, rfl, rfl⟩
  alloc s h := by
    cases hfind : (List.range' 1000 numSlots).find? (· ∉ s.used) with
    | none =>
      refine absurd ?_ h
      intro b hb
      have := List.find?_eq_none.mp hfind b (List.mem_toFinset.mp hb)
      simpa using this
    | some b =>
      refine ⟨b, _, by simp only [mockCache, hfind]; rfl, ?_, ?_, rfl, rfl⟩
      · exact List.mem_toFinset.mpr (List.mem_of_find?_eq_some hfind)
      · simpa using List.find?_some hfind
  free b s h := ⟨_, if_pos h, fun _ _ => rfl, rfl⟩

/-- The mock panics when its blocks are used up. -/
theorem mockCache_full (s : MockState) (hs : mockCacheIdeal.pool ⊆ mockCacheIdeal.used s) :
    ∃ e, mockCache.alloc s = .error e := by
  have hnone : (List.range' 1000 numSlots).find? (· ∉ s.used) = none := by
    rw [List.find?_eq_none]
    intro b hb
    have hused : b ∈ s.used := hs (List.mem_toFinset.mpr hb)
    simpa using hused
  exact ⟨.panic "no free block", by simp only [mockCache, hnone]⟩

/-- The mock has an inode to give. -/
theorem mockCache_inodeAlloc : ∃ n t,
    inodeAlloc (smallSuperBlock 20) mockCache 2 ⟨fun _ => .zero, {100}⟩ = .ok (n, t) := by
  obtain ⟨⟨n, t⟩, halloc⟩ := exists_ok
    (x := inodeAlloc (smallSuperBlock 20) mockCache 2 ⟨fun _ => .zero, {100}⟩) (by decide +kernel)
  exact ⟨n, t, halloc⟩

/-- The block of the inodes is in use. -/
theorem mockCache_used : ∀ i < (smallSuperBlock 20).numInodes.toNat,
    toBlockNo (smallSuperBlock 20) i ∈ mockCacheIdeal.used ⟨fun _ => .zero, {100}⟩ := by
  decide

/-- The mock has as many data blocks as an inode can own. -/
theorem mockCache_room : numSlots ≤ (mockCacheIdeal.pool \ {100}).card := by
  have hnot : 100 ∉ mockCacheIdeal.pool := by
    intro hmem
    have hrange := List.mem_range'_1.mp (List.mem_toFinset.mp hmem)
    omega
  have hcard : mockCacheIdeal.pool.card = numSlots := by
    show (List.range' 1000 numSlots).toFinset.card = numSlots
    rw [List.toFinset_card_of_nodup List.nodup_range', List.length_range']
  rw [Finset.sdiff_singleton_eq_erase, Finset.erase_eq_of_notMem hnot, hcard]

/-- Overwriting the end of a file, reading it, and starting anew. -/
theorem inode_refines_file_overwrite :
    ∃ n t inode u inode' v,
      inodeAlloc (smallSuperBlock 20) mockCache 2 ⟨fun _ => .zero, {100}⟩ = .ok (n, t) ∧
      inodeLoad (smallSuperBlock 20) mockCache n .zero t = .ok (inode, u) ∧
      inode.run (smallSuperBlock 20) mockCache u
        [.write 0 [1, 2, 3], .write 2 [8, 9], .read 1 3, .clear, .write 0 [7], .read 0 1] =
          .ok ([[], [], [2, 8, 9], [], [], [7]], inode', v) := by
  obtain ⟨n, t, halloc⟩ := mockCache_inodeAlloc
  obtain ⟨inode, u, hload, hops⟩ := inode_refines_file mockCacheIdeal (smallSuperBlock 20)
    ⟨fun _ => .zero, {100}⟩ mockCache_used mockCache_room halloc .zero
  obtain ⟨inode', v, hrun, -⟩ := hops
    [.write 0 [1, 2, 3], .write 2 [8, 9], .read 1 3, .clear, .write 0 [7], .read 0 1]
    (by simp [File.LegalRun, File.Legal, File.next, File.write])
  exact ⟨n, t, inode, u, inode', v, halloc, hload, hrun⟩

end KernelAarch64.Fs
