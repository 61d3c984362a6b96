import KernelAarch64.Fs.Inode.ByteArray
import KernelAarch64.Fs.Inode.Calls

/-!
# The entry of an inode, in memory and stored

An inode that was loaded has its entry twice: in memory, and in the block that stores it
(`entryOf`). The lemmas here say what `inode_sync`, `inode_write` and `inode_clear` do to both,
whatever the file holds.

`Loaded` says less than `Represents` of `Fs.Inode.ByteArray`: nothing about the content of the file.
So it is kept by calls that fail to write all they should, and it is what the results about entries
and blocks start from.
-/

namespace KernelAarch64.Fs

open KernelAarch64.Lib

/-- Inodes of one block differ in their place in it. -/
theorem eq_of_toBlockNo_eq {sb : SuperBlock} {m n : Nat}
    (hblock : toBlockNo sb m = toBlockNo sb n)
    (hmod : m % inodePerBlock = n % inodePerBlock) : m = n := by
  have h8 : inodePerBlock = 8 := rfl
  unfold toBlockNo at hblock
  rw [h8] at hblock hmod
  omega

namespace BlockCache.Ideal

variable {σ : Type} {cache : BlockCache σ} {c : cache.Ideal} {sb : SuperBlock}
  {base : Finset Nat} {inode inode' : Inode} {s t : σ} {m n : Nat} {e : InodeEntry}

/-- The stored entry of inode `n`. -/
def entryOf (c : cache.Ideal) (sb : SuperBlock) (s : σ) (n : Nat) : InodeEntry :=
  getEntry (c.mem s (toBlockNo sb n)) n

/-- The stored entry is in its block. -/
theorem entryOf_congr (h : c.mem t (toBlockNo sb n) = c.mem s (toBlockNo sb n)) :
    c.entryOf sb t n = c.entryOf sb s n := by
  rw [entryOf, entryOf, h]

/-- Storing the entry of an inode leaves the entries of the others alone. -/
theorem entryOf_putEntry (h : c.mem t (toBlockNo sb m) = Function.update (c.mem s) (toBlockNo sb n)
      (putEntry (c.mem s (toBlockNo sb n)) n e) (toBlockNo sb m)) :
    c.entryOf sb t m = if m = n then e else c.entryOf sb s m := by
  rw [entryOf, h]
  by_cases hblock : toBlockNo sb m = toBlockNo sb n
  · rw [hblock, Function.update_self, getEntry_putEntry]
    by_cases hmn : m = n
    · rw [if_pos (by rw [hmn]), if_pos hmn]
    · rw [if_neg fun hmod => hmn (eq_of_toBlockNo_eq hblock hmod), if_neg hmn, entryOf, hblock]
  · rw [Function.update_of_ne hblock, if_neg]
    · rfl
    · rintro rfl
      exact hblock rfl

/-- A valid inode in memory whose blocks are its own. `base` are the blocks of others, among them
the block that stores the inode. -/
structure Loaded (c : cache.Ideal) (sb : SuperBlock) (base : Finset Nat) (inode : Inode) (s : σ) :
    Prop where
  owns : c.Owns base inode.entry s
  valid : inode.valid = true
  inodeNo : 0 < inode.inodeNo ∧ inode.inodeNo < sb.numInodes.toNat
  block : toBlockNo sb inode.inodeNo ∈ base
  type : inode.entry.type ≠ inodeInvalid
  stored : (c.entryOf sb s inode.inodeNo).type ≠ inodeInvalid

/-- An inode that represents a file is loaded. -/
theorem Represents.loaded {file : File} (h : c.Represents sb base inode s file) :
    c.Loaded sb base inode s :=
  ⟨h.owns, h.valid, h.inodeNo, h.block, h.type, h.stored⟩

/-- `num_bytes` says nothing about blocks. -/
theorem Loaded.setNumBytes (h : c.Loaded sb base inode s) (v : UInt16) :
    c.Loaded sb base (inode.setNumBytes v) s :=
  ⟨h.owns, h.valid, h.inodeNo, h.block, h.type, h.stored⟩

/-- `inode_sync` with `do_write` stores the entry. -/
theorem Loaded.inodeSync (h : c.Loaded sb base inode s) :
    ∃ t, inodeSync sb cache inode true s = .ok (inode, t) ∧ c.Loaded sb base inode t ∧
      c.entryOf sb t inode.inodeNo = inode.entry ∧ c.used t = c.used s ∧
      c.mem t = Function.update (c.mem s) (toBlockNo sb inode.inodeNo)
        (putEntry (c.mem s (toBlockNo sb inode.inodeNo)) inode.inodeNo inode.entry) := by
  obtain ⟨t, hsync, hmem, hused⟩ := inodeSync_write_spec h.valid h.inodeNo h.stored
  have hentry : c.entryOf sb t inode.inodeNo = inode.entry := by
    rw [entryOf_putEntry (congrFun hmem _), if_pos rfl]
  obtain ⟨howns, -, -⟩ := h.owns.write_base h.block hmem hused
  refine ⟨t, hsync, ⟨howns, h.valid, h.inodeNo, h.block, h.type, ?_⟩, hentry, hused, hmem⟩
  rw [hentry]
  exact h.type

/-- The loop of `inode_write` leaves alone what it does not map. -/
theorem Loaded.wrote (h : c.Loaded sb base inode s) {q end' : Nat} {src : List UInt8}
    (hwrote : c.Wrote base q end' src inode s inode' t) (howns : c.Owns base inode'.entry t) :
    c.Loaded sb base inode' t ∧ c.entryOf sb t inode.inodeNo = c.entryOf sb s inode.inodeNo := by
  have hsame : c.entryOf sb t inode.inodeNo = c.entryOf sb s inode.inodeNo :=
    entryOf_congr (hwrote.base _ h.block)
  obtain ⟨addrs, indirect, rfl⟩ := hwrote.head
  exact ⟨⟨howns, h.valid, h.inodeNo, h.block, h.type, by rw [hsame]; exact h.stored⟩, hsame⟩

/-- With a block to spare for each slot, `inode_write` returns for bytes that end below the
limit. -/
theorem Loaded.inodeWrite_returns (h : c.Loaded sb base inode s)
    (hroom : numSlots ≤ (c.pool \ base).card) {src : List UInt8} {offset : Nat}
    (hoffset : offset ≤ inode.entry.numBytes.toNat) (hend : offset + src.length < inodeMaxBytes) :
    ∃ inode' t, inodeWrite sb cache inode src offset s = .ok (inode', t) := by
  obtain ⟨inode₁, modify, s₁, hloop, howns, hwrote, -⟩ :=
    (inodeWrite_loop_cases (allocOr_of_room hroom) h.owns hend).resolve_right fun hfail => hfail.1
  rw [inodeWrite_of_loop sb hoffset hend.le hloop]
  split
  · obtain ⟨t, hsync, -⟩ := ((h.wrote hwrote howns).1.setNumBytes _).inodeSync
    exact ⟨_, t, hsync⟩
  · exact ⟨inode₁, s₁, rfl⟩

/-- `inode_write` keeps the inode loaded. It stores the entry, unless it has not changed it, and
either way the entry on the disk has the blocks of the one in memory. -/
theorem Loaded.inodeWrite {Q : Prop} (h : c.Loaded sb base inode s) (halloc : c.AllocOr base Q)
    {src : List UInt8} {offset : Nat} (hsrc : src.length < 2 ^ 64)
    (hrun : inodeWrite sb cache inode src offset s = .ok (inode', t)) :
    c.Loaded sb base inode' t ∧ inode'.inodeNo = inode.inodeNo ∧
      inode'.entry.type = inode.entry.type ∧
      inode'.entry.numBytes =
        .ofNat (max (offset + src.length) inode.entry.numBytes.toNat) ∧
      (c.entryOf sb t inode.inodeNo = inode'.entry ∨
        inode' = inode ∧ c.entryOf sb t inode.inodeNo = c.entryOf sb s inode.inodeNo) := by
  have hend := inodeWrite_end_lt hsrc hrun
  obtain ⟨-, inode₁, modify, s₁, hloop, hrest⟩ := inodeWrite_eq_ok hsrc hrun
  have hcases := inodeWrite_loop_cases halloc h.owns hend
  rw [hloop] at hcases
  obtain ⟨_, _, _, heq, howns, hwrote, hmod⟩ | ⟨-, _, hfail⟩ := hcases
  swap
  · cases hfail
  cases heq
  obtain ⟨hloaded, hsame⟩ := h.wrote hwrote howns
  obtain ⟨addrs, indirect, rfl⟩ := hwrote.head
  dsimp only at hrest
  split at hrest
  · next hgrow =>
    obtain ⟨u, hsync, hloaded', hentry, -⟩ := (hloaded.setNumBytes
      (.ofNat (max (offset + src.length) inode.entry.numBytes.toNat))).inodeSync
    rw [hsync] at hrest
    cases hrest
    exact ⟨hloaded', rfl, rfl, rfl, .inl hentry⟩
  · next hgrow =>
    cases hrest
    rw [not_or, Nat.not_lt] at hgrow
    refine ⟨hloaded, rfl, rfl, ?_, .inr ⟨?_, hsame⟩⟩
    · rw [Nat.max_eq_right hgrow.2, UInt16.ofNat_toNat]
    · exact hmod.resolve_left hgrow.1

/-- The entry that `inode_get` gives an inode: the root is a directory, whatever is stored. -/
def loadedEntry (n : Nat) (e : InodeEntry) : InodeEntry := if n = 1 then { e with type := 1 } else e

theorem type_loadedEntry (he : e.type ≠ inodeInvalid) : (loadedEntry n e).type ≠ inodeInvalid := by
  unfold loadedEntry
  split
  · show (1 : UInt16) ≠ 0
    decide
  · exact he

/-- If the root is stored as a directory, an inode is loaded as it is stored. -/
theorem loadedEntry_eq (hroot : n = 1 → e.type = 1) : loadedEntry n e = e := by
  unfold loadedEntry
  split
  · next hn => rw [← hroot hn]
  · rfl

/-- `inode_get` reads the entry of an allocated inode. What was in the memory of the inode before
does not matter. -/
theorem inodeLoad_spec (c : cache.Ideal) (hn : 0 < n ∧ n < sb.numInodes.toNat)
    (htype : (c.entryOf sb s n).type ≠ inodeInvalid) (junk : InodeEntry) :
    ∃ t, inodeLoad sb cache n junk s = .ok (⟨n, true, loadedEntry n (c.entryOf sb s n)⟩, t) ∧
      c.mem t = c.mem s ∧ c.used t = c.used s := by
  obtain ⟨s₁, hacq, hmem₁, hused₁⟩ := c.acquire (toBlockNo sb n) s
  obtain ⟨t, hrel, hmem, hused⟩ := c.release (toBlockNo sb n) s₁
  refine ⟨t, ?_, hmem.trans hmem₁, hused.trans hused₁⟩
  have hsync : inodeSync sb cache ⟨n, false, junk⟩ false s =
      .ok (⟨n, true, c.entryOf sb s n⟩, t) := by
    unfold entryOf at *
    simp only [Fs.inodeSync, hacq, ok_bind, c.data, hmem₁]
    rw [if_neg (by omega), if_neg htype, if_pos trivial, hrel, ok_bind]
    rfl
  rw [inodeLoad, kassert_of hn.1, ok_bind, kassert_of hn.2, ok_bind, hsync, ok_bind]
  unfold loadedEntry
  by_cases hroot : n = 1
  · simp only [if_pos hroot]
    rfl
  · simp only [if_neg hroot]
    rfl

/-- `inode_get` returns for allocated inodes only, as a number out of range or a free entry ends in
a panic. -/
theorem inodeLoad_eq_ok (c : cache.Ideal) {junk : InodeEntry}
    (h : inodeLoad sb cache n junk s = .ok (inode, t)) :
    (0 < n ∧ n < sb.numInodes.toNat) ∧ (c.entryOf sb s n).type ≠ inodeInvalid ∧
      inode = ⟨n, true, loadedEntry n (c.entryOf sb s n)⟩ ∧ c.mem t = c.mem s ∧
      c.used t = c.used s := by
  obtain ⟨_, hpos, hrest⟩ := bind_eq_ok.mp h
  obtain ⟨_, hlt, hrest⟩ := bind_eq_ok.mp hrest
  have hn : 0 < n ∧ n < sb.numInodes.toNat := ⟨kassert_eq_ok.mp hpos, kassert_eq_ok.mp hlt⟩
  have htype : (c.entryOf sb s n).type ≠ inodeInvalid := by
    intro hinvalid
    obtain ⟨s₁, hacq, hmem₁, -⟩ := c.acquire (toBlockNo sb n) s
    obtain ⟨_, hsync, -⟩ := bind_eq_ok.mp hrest
    unfold entryOf at hinvalid
    simp only [Fs.inodeSync, hacq, ok_bind, c.data, hmem₁] at hsync
    rw [if_neg (by omega), if_pos hinvalid] at hsync
    cases hsync
  obtain ⟨u, hload, hmem, hused⟩ := inodeLoad_spec c hn htype junk
  rw [hload] at h
  cases h
  exact ⟨hn, htype, rfl, hmem, hused⟩

/-- `inode_clear` gives the blocks of an inode back and stores its entry. -/
theorem Loaded.inodeClear (h : c.Loaded sb base inode s) :
    ∃ t, inodeClear sb cache inode s = .ok (inode.cleared, t) ∧
      c.Loaded sb base inode.cleared t ∧ c.used t = base ∧
      ∀ x ∈ base, c.mem t x = Function.update (c.mem s) (toBlockNo sb inode.inodeNo)
        (putEntry (c.mem s (toBlockNo sb inode.inodeNo)) inode.inodeNo inode.cleared.entry) x := by
  obtain ⟨s₂, hclear, howns, hused₂, hbase⟩ := h.owns.inodeClear sb h.valid
  have hloaded : c.Loaded sb base inode.cleared s₂ := by
    refine ⟨howns, h.valid, h.inodeNo, h.block, h.type, ?_⟩
    rw [Inode.cleared_inodeNo, entryOf_congr (hbase _ h.block)]
    exact h.stored
  obtain ⟨t, hsync, hloaded', -, hused, hmem⟩ := hloaded.inodeSync
  refine ⟨t, ?_, hloaded', hused.trans hused₂, ?_⟩
  · rw [hclear, hsync]
  · intro x hx
    rw [hmem, Inode.cleared_inodeNo]
    by_cases hxb : x = toBlockNo sb inode.inodeNo
    · subst hxb
      rw [Function.update_self, Function.update_self, hbase _ hx]
    · rw [Function.update_of_ne hxb, Function.update_of_ne hxb, hbase x hx]

end BlockCache.Ideal

/-- `inode_get` on the mock does not change its state, since to acquire and release a block is
nothing there. -/
theorem mockCache_inodeLoad {sb : SuperBlock} {inode : Inode} {s : MockState}
    (hn : 0 < inode.inodeNo ∧ inode.inodeNo < sb.numInodes.toNat) (hroot : inode.inodeNo ≠ 1)
    (hvalid : inode.valid = true) (htype : inode.entry.type ≠ inodeInvalid)
    (hstored : mockCacheIdeal.entryOf sb s inode.inodeNo = inode.entry) (junk : InodeEntry) :
    inodeLoad sb mockCache inode.inodeNo junk s = .ok (inode, s) := by
  obtain ⟨⟨mem, used⟩, hload, hmem, hused⟩ := BlockCache.Ideal.inodeLoad_spec mockCacheIdeal hn
    (s := s) (by rw [hstored]; exact htype) junk
  obtain ⟨n, valid, e⟩ := inode
  cases hvalid
  cases hmem
  cases hused
  rw [hload, hstored]
  unfold BlockCache.Ideal.loadedEntry
  rw [if_neg hroot]

end KernelAarch64.Fs
