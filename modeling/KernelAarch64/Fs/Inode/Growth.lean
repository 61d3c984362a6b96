import KernelAarch64.Fs.Inode.Structs

/-!
# How files grow

`inode_write` stores the new size in `num_bytes` and allocates the blocks that it comes to. Sizes
have 16 bits, while `INODE_MAX_BYTES` is larger, and the loop of `inode_write` takes one turn more
when the last byte is the last one of its block: it maps the block after it. So `num_bytes` is right
as long as it fits, and a file has a block that it does not need whenever its size is a multiple of
the size of a block.

The results are `inodeWrite_size_of_harmless` for the size and `writes_allocateExactly_iff` for the
blocks, both for harmless writes over structs. For the blocks, `Grown` says how far a file has been
allocated after a write: up to the block of its last byte, or one further if this byte is the last
of its block. The loop keeps `Dense`, the property to have just the first blocks
(`inodeWriteFrom_dense`), and `Grown.exact_iff` compares this with what the file needs.
-/

namespace KernelAarch64.Fs

open KernelAarch64.Lib

/-! ## The size

`num_bytes` has 16 bits, and `inode_write` stores the end of the bytes there without a check of its
own. -/

namespace BlockCache.Ideal

variable {σ : Type} {cache : BlockCache σ} {c : cache.Ideal} {sb : SuperBlock} {base : Finset Nat}
  {inode inode' : Inode} {s t : σ} {offset : Nat} {src : List UInt8}

/-- The size after `inode_write`, in the 16 bits of `num_bytes`. -/
theorem numBytes_inodeWrite (h : c.Loaded sb base inode s)
    (hroom : numSlots ≤ (c.pool \ base).card) (hend : offset + src.length ≤ inodeMaxBytes)
    (hrun : inodeWrite sb cache inode src offset s = .ok (inode', t)) :
    inode'.entry.numBytes.toNat =
      max inode.entry.numBytes.toNat (offset + src.length) % 2 ^ 16 := by
  have hsrc : src.length < 2 ^ 64 := by
    rw [inodeMaxBytes_eq] at hend
    omega
  obtain ⟨-, -, -, hsize, -⟩ := h.inodeWrite (allocOr_of_room hroom) hsrc hrun
  rw [hsize, UInt16.toNat_ofNat', Nat.max_comm]

/-- As long as the end of the bytes fits in 16 bits, `inode_write` returns with the larger of the
old size and this end in `num_bytes`. -/
theorem inodeWrite_size (h : c.Loaded sb base inode s) (hroom : numSlots ≤ (c.pool \ base).card)
    (hoffset : offset ≤ inode.entry.numBytes.toNat) (hend : offset + src.length ≤ 65535) :
    ∃ inode' t, inodeWrite sb cache inode src offset s = .ok (inode', t) ∧
      inode'.entry.numBytes.toNat = max inode.entry.numBytes.toNat (offset + src.length) := by
  have hlt : offset + src.length < inodeMaxBytes := by
    rw [inodeMaxBytes_eq]
    omega
  obtain ⟨inode', t, hrun⟩ := h.inodeWrite_returns hroom hoffset hlt
  refine ⟨inode', t, hrun, ?_⟩
  have hold := inode.entry.numBytes.toNat_lt
  rw [numBytes_inodeWrite h hroom hlt.le hrun, Nat.mod_eq_of_lt (by omega)]

end BlockCache.Ideal

namespace BlockCache.Structs

variable {σ : Type} {cache : BlockCache σ} {c : cache.Structs} {sb : SuperBlock} {base : Finset Nat}
  {inode : Inode} {s : σ} {offset : Nat}

/-- For a valid inode and an offset in the file, a harmless `inode_write` returns with the larger of
the old size and the end of the bytes in `num_bytes`. It is harmless if it needs no indirect block
and writes to no place of a member before `data`. Where the end does not fit in 16 bits, `num_bytes`
is never right. -/
theorem inodeWrite_size_of_harmless (h : c.Loaded sb base inode s)
    (hroom : numSlots ≤ (c.pool \ base).card) (hoffset : offset ≤ inode.entry.numBytes.toNat)
    (src : List UInt8) :
    (cache.Harmless sb inode src offset s →
      ∃ inode' t, inodeWrite sb cache inode src offset s = .ok (inode', t) ∧
        inode'.entry.numBytes.toNat = max inode.entry.numBytes.toNat (offset + src.length)) ∧
    (offset + src.length < inodeNumDirect * blockSize →
      (∀ p, offset ≤ p → p < offset + src.length → dataOffset ≤ p % blockSize) →
      cache.Harmless sb inode src offset s) ∧
    (65535 < offset + src.length → ∀ inode' t,
      inodeWrite sb cache inode src offset s = .ok (inode', t) →
      inode'.entry.numBytes.toNat ≠ max inode.entry.numBytes.toNat (offset + src.length)) := by
  obtain ⟨g, htracks⟩ := h.tracks
  have hsmall : inodeNumDirect * blockSize ≤ 65535 := by decide
  refine ⟨fun hharmless => ?_, fun hdirect hplaces => ?_, fun hend inode' t _ hsize => ?_⟩
  · obtain ⟨_, g', hrun, hsize⟩ := BlockCache.Ideal.inodeWrite_size htracks.loaded hroom hoffset
      (hharmless.1.le.trans hsmall)
    have hfollows := htracks.inodeWrite hharmless
    rw [hrun] at hfollows
    obtain ⟨⟨inode', t⟩, hcall, rfl, -⟩ := hfollows.ok_of_not id
    exact ⟨inode', t, hcall, hsize⟩
  · obtain ⟨inode', g', hrun, -⟩ := BlockCache.Ideal.inodeWrite_size htracks.loaded hroom hoffset
      (hdirect.le.trans hsmall)
    exact htracks.sim.harmless_of_places (Set.mem_singleton _)
      (by rintro b rfl; exact htracks.loaded.block) (fun b hb => .inr hb) htracks.loaded.owns hdirect
      hplaces ⟨_, hrun⟩
  · have hlt := inode'.entry.numBytes.toNat_lt
    omega

end BlockCache.Structs

/-- A byte in the middle of a file of 100 bytes, behind the header of its block. The size stays what
it is. -/
theorem inodeWrite_size_of_harmless_byte : ∃ inode' t,
    inodeWrite (smallSuperBlock 20) structMock (structFile 2 100) [7] 80 (structFileState 2 100) =
      .ok (inode', t) ∧
    inode'.entry.numBytes.toNat = 100 := by
  obtain ⟨hsize, hharmless, -⟩ := BlockCache.Structs.inodeWrite_size_of_harmless
    (structFile_loaded 100 (by decide)) mockCache_room
    (show 80 ≤ (structFile 2 100).entry.numBytes.toNat by decide) [7]
  refine hsize (hharmless (by decide) fun p hle hlt => ?_)
  rw [List.length_singleton] at hlt
  unfold dataOffset blockSize
  omega

/-- A file of 65535 bytes, inode `2`, in the blocks from `1000` on with `1012` as indirect block. -/
def imageFile : Inode := ⟨2, true, { InodeEntry.zero with
  type := 2, numLinks := 1, numBytes := 65535, indirect := 1012, addrs := fun k => 1000 + .ofNat k }⟩

/-- The mock with this file as it is on a disk: the entry in block 100, the indirect block 1012, and
the blocks of the file from 1000 on. -/
def imageState : MockState :=
  ⟨fun b => if b = 100 then putEntry .zero 2 imageFile.entry
    else if b = 1012 then fun k => leByte (1013 + k / 4) (k % 4) else .zero,
    insert 100 (List.range' 1000 129).toFinset⟩

/-- One byte more makes the size 0, and if the file gets `INODE_MAX_BYTES` bytes, `inode_write` does
not return. -/
theorem inodeWrite_size_wraps :
    inodeLoad (smallSuperBlock 20) structMock 2 .zero imageState = .ok (imageFile, imageState) ∧
    (65535 + 1 ≤ inodeMaxBytes ∧ ∃ inode' t, inodeWrite (smallSuperBlock 20) structMock imageFile
        [7] 65535 imageState = .ok (inode', t) ∧ inode'.entry.numBytes.toNat = 0) ∧
    (0 + 71680 ≤ inodeMaxBytes ∧ ∀ inode' t, inodeWrite (smallSuperBlock 20) structMock imageFile
        (List.replicate 71680 7) 0 imageState ≠ .ok (inode', t)) := by
  refine ⟨?_, ⟨by decide, ?_⟩, by decide, fun inode' t hrun => ?_⟩
  · have hstored : mockCacheIdeal.entryOf (smallSuperBlock 20) imageState imageFile.inodeNo =
        imageFile.entry := by
      show getEntry (putEntry .zero 2 imageFile.entry) 2 = imageFile.entry
      rw [getEntry_putEntry, if_pos rfl]
    exact mockCache_inodeLoad (by decide) (by decide) rfl (by decide) hstored .zero
  · obtain ⟨_, hrun⟩ := exists_ok (x := do
      let (inode', t) ← inodeWrite (smallSuperBlock 20) structMock imageFile [7] 65535 imageState
      kassert (inode'.entry.numBytes.toNat = 0) "the size") (by decide +kernel)
    obtain ⟨⟨inode', t⟩, hrun, hsize⟩ := bind_eq_ok.mp hrun
    exact ⟨inode', t, hrun, kassert_eq_ok.mp hsize⟩
  · have hlt := inodeWrite_end_lt (by rw [List.length_replicate]; omega) hrun
    rw [List.length_replicate, inodeMaxBytes_eq] at hlt
    omega

/-! ## The blocks

The loop goes from the block of the offset to the one of the end, both included. When the end is at
a boundary, the last turn copies nothing and still maps its block. -/

/-- The number of data blocks that the file has. -/
def InodeEntry.numDataBlocks (e : InodeEntry) (mem : Disk) : Nat :=
  ((Finset.range inodeMaxBlocks).filter fun k => e.addr mem k ≠ 0).card

/-- The file has the blocks that it needs and no others, the indirect block among them only if the
direct ones are not enough. -/
structure InodeEntry.Exact (e : InodeEntry) (mem : Disk) : Prop where
  count : e.numDataBlocks mem = (e.numBytes.toNat + (blockSize - 1)) / blockSize
  indirect : e.indirect ≠ 0 ↔ inodeNumDirect < e.numDataBlocks mem

/-- The file has its first `n` blocks, and an indirect block if these are more than the direct
ones. -/
def InodeEntry.Dense (e : InodeEntry) (mem : Disk) (n : Nat) : Prop :=
  ∀ j < numSlots, e.slot mem j ≠ 0 ↔ if j < inodeMaxBlocks then j < n else inodeNumDirect < n

namespace InodeEntry.Dense

variable {e : InodeEntry} {mem : Disk} {n : Nat}

/-- The data blocks of such a file. -/
theorem addr_ne_zero_iff (h : e.Dense mem n) {j : Nat} (hj : j < inodeMaxBlocks) :
    e.addr mem j ≠ 0 ↔ j < n := by
  have hslot := h j (Nat.lt_succ_of_lt hj)
  rwa [InodeEntry.slot_of_lt hj, if_pos hj] at hslot

/-- The indirect block of such a file. -/
theorem indirect_ne_zero_iff (h : e.Dense mem n) : e.indirect ≠ 0 ↔ inodeNumDirect < n := by
  have hslot := h inodeMaxBlocks (Nat.lt_succ_self _)
  rwa [InodeEntry.slot_last, if_neg (Nat.lt_irrefl _), ne_eq, toNat_eq_zero] at hslot

theorem numDataBlocks (h : e.Dense mem n) (hn : n ≤ inodeMaxBlocks) : e.numDataBlocks mem = n := by
  have hfilter : (Finset.range inodeMaxBlocks).filter (fun k => e.addr mem k ≠ 0) =
      Finset.range n := by
    ext k
    simp only [Finset.mem_filter, Finset.mem_range]
    constructor
    · intro hk
      exact (h.addr_ne_zero_iff hk.1).mp hk.2
    · intro hk
      have hmax : k < inodeMaxBlocks := Nat.lt_of_lt_of_le hk hn
      exact ⟨hmax, (h.addr_ne_zero_iff hmax).mpr hk⟩
  rw [InodeEntry.numDataBlocks, hfilter, Finset.card_range]

/-- With its first `n` blocks a file has exactly what it needs if it needs `n`. -/
theorem exact_iff (h : e.Dense mem n) (hn : n ≤ inodeMaxBlocks) :
    e.Exact mem ↔ n = (e.numBytes.toNat + (blockSize - 1)) / blockSize := by
  rw [← h.numDataBlocks hn]
  refine ⟨fun hexact => hexact.count, fun hcount => ⟨hcount, ?_⟩⟩
  rw [h.numDataBlocks hn]
  exact h.indirect_ne_zero_iff

end InodeEntry.Dense

namespace BlockCache.Ideal

variable {σ : Type} {cache : BlockCache σ} {c : cache.Ideal} {sb : SuperBlock} {base : Finset Nat}
  {inode inode' : Inode} {s t : σ} {offset : Nat} {src : List UInt8} {n : Nat}

/-- The next block of a file is mapped, or one that it has. Either way the mapped blocks are those
up to some number, with no hole in between. -/
theorem Mapped.dense {k b : Nat} (h : c.Mapped base inode s k b inode' t)
    (hfills : c.Fills (slotsFor k) inode s inode' t) (hdense : inode.entry.Dense (c.mem s) n)
    (hk : k < inodeMaxBlocks) (hkn : k ≤ n) :
    inode'.entry.Dense (c.mem t) (max n (k + 1)) ∧ (k < n → c.used t = c.used s) := by
  have haddr : inode'.entry.addr (c.mem t) k ≠ 0 := h.addr.trans_ne h.ne_zero
  constructor
  · intro j hj
    have hold : ¬ (j = k ∨ j = inodeMaxBlocks ∧ ¬ k < inodeNumDirect) →
        inode'.entry.slot (c.mem t) j = inode.entry.slot (c.mem s) j := fun hother =>
      (hfills.slot j hj).resolve_right fun hfill => hother hfill.1
    by_cases hjk : j = k
    · rw [hjk, InodeEntry.slot_of_lt hk, if_pos hk]
      exact ⟨fun _ => by omega, fun _ => haddr⟩
    · by_cases hlast : j = inodeMaxBlocks
      · subst hlast
        by_cases hdirect : k < inodeNumDirect
        · rw [hold (by omega), hdense _ hj, if_neg (Nat.lt_irrefl _), if_neg (Nat.lt_irrefl _)]
          omega
        · -- the block is in the indirect block, so there is one
          rw [InodeEntry.slot_last, if_neg (Nat.lt_irrefl _), ne_eq, toNat_eq_zero]
          refine ⟨fun _ => by omega, fun _ hind => ?_⟩
          exact haddr (InodeEntry.addr_of_no_indirect hdirect hind)
      · have hlt : j < inodeMaxBlocks := Nat.lt_of_le_of_ne (Nat.le_of_lt_succ hj) hlast
        rw [hold (by omega), hdense j hj, if_pos hlt, if_pos hlt]
        omega
  · intro hlt
    apply hfills.used
    rintro j hj (rfl | ⟨rfl, hdirect⟩)
    · rw [InodeEntry.slot_of_lt hk]
      exact (hdense.addr_ne_zero_iff hk).mpr hlt
    · rw [hdense _ hj, if_neg (Nat.lt_irrefl _)]
      omega

/-- The loop of `inode_write` maps one block after another. By induction on the turns to go: the
first turn is at the end of the mapped blocks or before. -/
theorem inodeWriteFrom_dense {Q : Prop} (halloc : c.AllocOr base Q) {end' m i : Nat}
    {modify modify' : Bool} (h : c.Owns base inode.entry s) (hi : i % blockSize = 0)
    (hmax : i + m * blockSize ≤ inodeMaxBytes) (hdense : inode.entry.Dense (c.mem s) n)
    (hin : i / blockSize ≤ n)
    (hrun : inodeWriteFrom cache offset end' m i src inode modify s = .ok (inode', modify', t)) :
    inode'.entry.Dense (c.mem t) (max n (i / blockSize + m)) ∧
      (i / blockSize + m ≤ n → c.used t = c.used s) := by
  induction m generalizing i src inode modify s n with
  | zero =>
    cases hrun
    rw [Nat.add_zero, Nat.max_eq_left hin]
    exact ⟨hdense, fun _ => rfl⟩
  | succ m ih =>
    rw [Nat.succ_mul] at hmax
    have hlt : i < inodeMaxBytes := by
      have hpos : 0 < blockSize := by decide
      omega
    have hk := div_lt_inodeMaxBlocks hlt
    have hdiv : (i + blockSize) / blockSize = i / blockSize + 1 :=
      Nat.add_div_right i (by decide)
    rcases inodeWriteFrom_turn halloc offset end' h hlt src modify with
      ⟨b, inode₁, modify₁, s₁, s₂, hturn, -, hnext⟩ | ⟨-, e, herr⟩
    swap
    · rw [herr m] at hrun
      cases hrun
    rw [hnext m] at hrun
    obtain ⟨hdense₁, hused₁⟩ := hturn.mapped.dense hturn.fills hdense hk hin
    -- the copy goes to a data block
    have haddr : inode₁.entry.addr (c.mem s₁) (i / blockSize) ≠ 0 :=
      hturn.mapped.addr.trans_ne hturn.mapped.ne_zero
    have hmem := hturn.mem
    rw [← hturn.mapped.addr] at hmem
    have hdense₂ : inode₁.entry.Dense (c.mem s₂) (max n (i / blockSize + 1)) := by
      intro j hj
      rw [hturn.mapped.owns.slot_write hk haddr hmem]
      exact hdense₁ j hj
    obtain ⟨hdense', hused'⟩ := ih hturn.owns (by rw [Nat.add_mod_right, hi]) (by omega) hdense₂
      (by rw [hdiv]; exact Nat.le_max_right _ _) hrun
    rw [hdiv] at hdense' hused'
    constructor
    · have hcount : max (max n (i / blockSize + 1)) (i / blockSize + 1 + m) =
          max n (i / blockSize + (m + 1)) := by omega
      rwa [hcount] at hdense'
    · intro hle
      rw [hused' (by omega), hturn.used, hused₁ (by omega)]

/-- A file between two writes: it has all its blocks up to the one where the next byte goes, unless
nothing was written to it. -/
structure Grown (c : cache.Ideal) (sb : SuperBlock) (base : Finset Nat) (inode : Inode) (s : σ)
    (n : Nat) : Prop where
  loaded : c.Loaded sb base inode s
  dense : inode.entry.Dense (c.mem s) n
  count : n = inode.entry.numBytes.toNat / blockSize + 1 ∨ n = 0 ∧ inode.entry.numBytes = 0

/-- A file of less than 65536 bytes does not use up its slots. -/
theorem Grown.le_maxBlocks (h : c.Grown sb base inode s n) : n ≤ inodeMaxBlocks := by
  have hlt := inode.entry.numBytes.toNat_lt
  unfold inodeMaxBlocks inodeNumDirect inodeNumIndirect
  rcases h.count with hcount | ⟨hcount, -⟩
  · unfold blockSize at *
    omega
  · omega

/-- A write that begins in the file begins in its blocks, or right behind them. -/
theorem Grown.div_le (h : c.Grown sb base inode s n) (hoffset : offset ≤ inode.entry.numBytes.toNat) :
    offset / blockSize ≤ n := by
  rcases h.count with hcount | ⟨-, hzero⟩
  · have hdiv : offset / blockSize ≤ inode.entry.numBytes.toNat / blockSize :=
      Nat.div_le_div_right hoffset
    omega
  · rw [hzero] at hoffset
    have hoffset : offset = 0 := Nat.le_zero.mp hoffset
    rw [hoffset, Nat.zero_div]
    exact Nat.zero_le n

/-- What `inode_write` does after its loop does not touch the blocks of the file. -/
theorem slot_inodeWrite {inode₁ : Inode} {modify : Bool} {s₁ : σ}
    (h : c.Loaded sb base inode₁ s₁) (hoffset : offset ≤ inode.entry.numBytes.toNat)
    (hend : offset + src.length ≤ inodeMaxBytes)
    (hloop : inodeWriteFrom cache offset (offset + src.length)
      ((offset + src.length - roundDown offset) / blockSize + 1) (roundDown offset) src inode false
        s = .ok (inode₁, modify, s₁))
    (hrun : inodeWrite sb cache inode src offset s = .ok (inode', t)) :
    (∀ j, inode'.entry.slot (c.mem t) j = inode₁.entry.slot (c.mem s₁) j) ∧ c.used t = c.used s₁ := by
  rw [inodeWrite_of_loop sb hoffset hend hloop] at hrun
  split at hrun
  · have hload := h.setNumBytes
      (.ofNat (max (offset + src.length) inode₁.entry.numBytes.toNat))
    obtain ⟨u, hsync, -, -, hused, hmem⟩ := hload.inodeSync
    rw [hsync] at hrun
    cases hrun
    exact ⟨hload.owns.slot_write_base hload.block hmem, hused⟩
  · cases hrun
    exact ⟨fun _ => rfl, rfl⟩

/-- A write below 65536 maps the blocks up to the one where its last byte would be followed by
another. The turn for the block of `end` is what makes it one more at a boundary. -/
theorem Grown.inodeWrite (h : c.Grown sb base inode s n)
    (hroom : numSlots ≤ (c.pool \ base).card) (hoffset : offset ≤ inode.entry.numBytes.toNat)
    (hend : offset + src.length ≤ 65535) :
    ∃ inode' t, inodeWrite sb cache inode src offset s = .ok (inode', t) ∧
      inode'.entry.numBytes.toNat = max inode.entry.numBytes.toNat (offset + src.length) ∧
      c.Grown sb base inode' t (inode'.entry.numBytes.toNat / blockSize + 1) ∧
      ((offset + src.length) / blockSize < n → c.used t = c.used s) := by
  have hlt : offset + src.length < inodeMaxBytes := by
    rw [inodeMaxBytes_eq]
    omega
  obtain ⟨inode', t, hrun⟩ := h.loaded.inodeWrite_returns hroom hoffset hlt
  have hold := inode.entry.numBytes.toNat_lt
  have hsize : inode'.entry.numBytes.toNat =
      max inode.entry.numBytes.toNat (offset + src.length) := by
    rw [numBytes_inodeWrite h.loaded hroom hlt.le hrun, Nat.mod_eq_of_lt (by omega)]
  obtain ⟨hloaded, -⟩ := h.loaded.inodeWrite (allocOr_of_room hroom) (by omega) hrun
  obtain ⟨inode₁, modify, s₁, hloop, howns, hwrote, -⟩ :=
    (inodeWrite_loop_cases (allocOr_of_room hroom) h.loaded.owns hlt).resolve_right
      fun hfail => hfail.1
  have hround : roundDown offset / blockSize = offset / blockSize := by
    unfold roundDown blockSize
    omega
  -- The last turn is the one for the block of `end`, whether or not a byte goes there.
  have hturns : offset / blockSize + ((offset + src.length - roundDown offset) / blockSize + 1) =
      (offset + src.length) / blockSize + 1 := by
    unfold roundDown blockSize
    omega
  obtain ⟨hdense, hused⟩ := inodeWriteFrom_dense (allocOr_of_room hroom) h.loaded.owns
    (roundDown_spec offset).2.2 (by
      unfold roundDown inodeMaxBytes inodeMaxBlocks inodeNumDirect inodeNumIndirect blockSize at *
      omega) h.dense (hround ▸ h.div_le hoffset) hloop
  rw [hround, hturns] at hdense hused
  obtain ⟨hslot, hused'⟩ := slot_inodeWrite (h.loaded.wrote hwrote howns).1 hoffset hlt.le hloop hrun
  refine ⟨inode', t, hrun, hsize, ⟨hloaded, ?_, .inl rfl⟩, fun hinside => ?_⟩
  · have hcount : inode'.entry.numBytes.toNat / blockSize + 1 =
        max n ((offset + src.length) / blockSize + 1) := by
      rw [hsize]
      -- An empty file has no block yet, any other one has the block of its size.
      rcases h.count with hcount | ⟨hcount, hzero⟩
      · rw [hcount]
        unfold blockSize
        omega
      · rw [hcount, hzero]
        unfold blockSize
        show max 0 _ / 512 + 1 = _
        omega
    rw [hcount]
    intro j hj
    rw [hslot]
    exact hdense j hj
  · rw [hused', hused hinside]

/-- An inode that was just allocated and loaded has no block. -/
theorem inodeAlloc_grown (c : cache.Ideal) {type : UInt16} {m : Nat}
    (hused : ∀ i < sb.numInodes.toNat, toBlockNo sb i ∈ c.used s)
    (h : inodeAlloc sb cache type s = .ok (m, t)) (junk : InodeEntry) :
    ∃ inode u, inodeLoad sb cache m junk t = .ok (inode, u) ∧
      c.Grown sb (c.used s) inode u 0 := by
  obtain ⟨inode, u, hload, hrep⟩ := inodeAlloc_represents c hused h junk
  refine ⟨inode, u, hload, hrep.loaded, ?_, .inr ⟨rfl, UInt16.toNat_inj.mp hrep.size⟩⟩
  obtain ⟨-, -, h⟩ := bind_eq_ok.mp h
  obtain ⟨hm, -, -, hmem, -⟩ := inodeAllocFrom_spec c rfl h
  have hentry : c.entryOf sb t m = { InodeEntry.zero with type := type } := by
    rw [entryOf, hmem, Function.update_self, getEntry_putEntry, if_pos rfl]
  obtain ⟨-, -, rfl, -⟩ := inodeLoad_eq_ok c hload
  intro j hj
  have hslot : (loadedEntry m (c.entryOf sb t m)).slot (c.mem u) j = 0 := by
    rw [loadedEntry, if_neg (by omega), hentry]
    exact InodeEntry.slot_of_no_blocks (fun _ => rfl) rfl
  rw [hslot]
  split <;> simp

end BlockCache.Ideal

/-! ## Sequences of writes

Between two writes the file is `GrownDirect`: it has only direct blocks, as a harmless write needs
no others, and so its blocks can be read off the entry. -/

/-- The positions from `offset` on, `count` of them, are in blocks that the file has. -/
def InsideBlocks (e : InodeEntry) (mem : Disk) (offset count : Nat) : Prop :=
  ∀ p, offset ≤ p → p < offset + count → e.addr mem (p / blockSize) ≠ 0

/-- The writes return, the file has the blocks that it needs at any time, and a write of no bytes or
into blocks that the file has allocates nothing. `mem` is what the inode layer takes for the content
of the blocks, `used` are the blocks in use. -/
def AllocatesExactly {σ : Type} (sb : SuperBlock) (cache : BlockCache σ) (mem : σ → Disk)
    (used : σ → Finset Nat) : Inode → σ → List (Nat × List UInt8) → Prop
  | inode, s, [] => inode.entry.Exact (mem s)
  | inode, s, (offset, src) :: writes => inode.entry.Exact (mem s) ∧ ∃ inode' t,
    inodeWrite sb cache inode src offset s = .ok (inode', t) ∧
    (src = [] ∨ InsideBlocks inode.entry (mem s) offset src.length → used t = used s) ∧
    AllocatesExactly sb cache mem used inode' t writes

/-- The file has what it needs before the first write. -/
theorem AllocatesExactly.exact {σ : Type} {sb : SuperBlock} {cache : BlockCache σ} {mem : σ → Disk}
    {used : σ → Finset Nat} {inode : Inode} {s : σ} {writes : List (Nat × List UInt8)}
    (h : AllocatesExactly sb cache mem used inode s writes) : inode.entry.Exact (mem s) := by
  cases writes with
  | nil => exact h
  | cons w writes => exact h.1

/-- All writes of the sequence are harmless, each on the inode and the state that those before it
have left. -/
def HarmlessWrites {σ : Type} (sb : SuperBlock) (cache : BlockCache σ) :
    Inode → σ → List (Nat × List UInt8) → Prop
  | _, _, [] => True
  | inode, s, (offset, src) :: writes => cache.Harmless sb inode src offset s ∧
    ∀ inode' t, inodeWrite sb cache inode src offset s = .ok (inode', t) →
      HarmlessWrites sb cache inode' t writes

/-- The writes begin in the file of `size` bytes or at its end and end below 65536. The size is
followed from write to write. -/
def LegalWrites (size : Nat) : List (Nat × List UInt8) → Prop
  | [] => True
  | (offset, src) :: writes => offset ≤ size ∧ offset + src.length ≤ 65535 ∧
    LegalWrites (max size (offset + src.length)) writes

/-- No write leaves the file with a size that is a multiple of the size of a block. At such a size
the loop has mapped a block that holds no byte yet. -/
def OffBoundary (size : Nat) : List (Nat × List UInt8) → Prop
  | [] => True
  | (offset, src) :: writes => max size (offset + src.length) % blockSize ≠ 0 ∧
    OffBoundary (max size (offset + src.length)) writes

namespace BlockCache.Ideal

variable {σ : Type} {cache : BlockCache σ} {c : cache.Ideal} {sb : SuperBlock} {base : Finset Nat}
  {inode : Inode} {s : σ} {offset : Nat} {src : List UInt8} {n : Nat}

/-- A file that was written to has a block too many exactly at the boundaries of blocks. -/
theorem Grown.exact_iff
    (h : c.Grown sb base inode s (inode.entry.numBytes.toNat / blockSize + 1)) :
    inode.entry.Exact (c.mem s) ↔ inode.entry.numBytes.toNat % blockSize ≠ 0 := by
  rw [h.dense.exact_iff h.le_maxBlocks]
  unfold blockSize
  omega

/-- Bytes that go to blocks of the file do not end behind them. -/
theorem Grown.end_le (h : c.Grown sb base inode s n) (hexact : inode.entry.Exact (c.mem s))
    (hoffset : offset ≤ inode.entry.numBytes.toNat) (hend : offset + src.length ≤ 65535)
    (hinside : src = [] ∨ InsideBlocks inode.entry (c.mem s) offset src.length) :
    offset + src.length ≤ n * blockSize := by
  have hcount := (h.dense.exact_iff h.le_maxBlocks).mp hexact
  by_cases hsrc : src = []
  · rw [hsrc, List.length_nil, hcount]
    unfold blockSize
    omega
  · have hpos := List.length_pos_of_ne_nil hsrc
    have hlast := hinside.resolve_left hsrc (offset + src.length - 1) (by omega) (by omega)
    have hmax : (offset + src.length - 1) / blockSize < inodeMaxBlocks :=
      div_lt_inodeMaxBlocks (by rw [inodeMaxBytes_eq]; omega)
    have hlt := (h.dense.addr_ne_zero_iff hmax).mp hlast
    unfold blockSize at *
    omega

/-- A file in its direct blocks has no indirect block. -/
theorem Grown.indirect_eq_zero (h : c.Grown sb base inode s n) (hn : n ≤ inodeNumDirect) :
    inode.entry.indirect = 0 := by
  by_contra hne
  exact absurd (h.dense.indirect_ne_zero_iff.mp hne) (Nat.not_lt.mpr hn)

end BlockCache.Ideal

namespace InodeEntry

variable {e : InodeEntry} {n : Nat}

/-- Without an indirect block it is the entry alone that says which blocks a file has. -/
theorem addr_of_indirect_eq_zero (hind : e.indirect = 0) (mem mem' : Disk) :
    e.addr mem = e.addr mem' := by
  funext k
  exact addr_congr (fun hne => absurd hind hne) k

/-- So it is for the blocks that the file needs: without an indirect block the entry says it alone.
-/
theorem exact_of_indirect_eq_zero (hind : e.indirect = 0) (mem mem' : Disk) :
    e.Exact mem ↔ e.Exact mem' := by
  have hcount : e.numDataBlocks mem = e.numDataBlocks mem' := by
    unfold numDataBlocks
    rw [addr_of_indirect_eq_zero hind mem mem']
  constructor
  · rintro ⟨hblocks, hindirect⟩
    rw [hcount] at hblocks hindirect
    exact ⟨hblocks, hindirect⟩
  · rintro ⟨hblocks, hindirect⟩
    rw [← hcount] at hblocks hindirect
    exact ⟨hblocks, hindirect⟩

/-- So it is for the first blocks. -/
theorem dense_of_indirect_eq_zero (hind : e.indirect = 0) (mem mem' : Disk) :
    e.Dense mem n → e.Dense mem' n := by
  intro h j hj
  rw [slot_congr (fun hne => absurd hind hne) j]
  exact h j hj

end InodeEntry

namespace BlockCache.Structs

variable {σ : Type} {cache : BlockCache σ} {c : cache.Structs} {sb : SuperBlock} {base : Finset Nat}
  {inode : Inode} {s : σ} {g : σ × Disk} {n : Nat}

/-- A file over structs that has only direct blocks, with the plain content where it has grown. -/
structure GrownDirect (c : cache.Structs) (sb : SuperBlock) (base : Finset Nat) (inode : Inode) (s : σ)
    (g : σ × Disk) (n : Nat) : Prop where
  tracks : c.Tracks sb base inode s g
  grown : c.contentsIdeal.Grown sb base inode g n
  direct : n ≤ inodeNumDirect

/-- The structs and the plain content agree on the blocks of the file. -/
theorem GrownDirect.exact_iff (h : c.GrownDirect sb base inode s g n) :
    inode.entry.Exact (c.castMem s) ↔ inode.entry.Exact (c.contentsIdeal.mem g) :=
  InodeEntry.exact_of_indirect_eq_zero (h.grown.indirect_eq_zero h.direct) _ _

/-- A harmless write returns, and the file grows as it does over plain content. All of it goes to
direct blocks, and no header is changed. -/
theorem GrownDirect.inodeWrite (h : c.GrownDirect sb base inode s g n)
    (hroom : numSlots ≤ (c.pool \ base).card) {offset : Nat} {src : List UInt8}
    (hoffset : offset ≤ inode.entry.numBytes.toNat)
    (hharmless : cache.Harmless sb inode src offset s) :
    ∃ inode' t g', inodeWrite sb cache inode src offset s = .ok (inode', t) ∧
      inode'.entry.numBytes.toNat = max inode.entry.numBytes.toNat (offset + src.length) ∧
      c.GrownDirect sb base inode' t g' (inode'.entry.numBytes.toNat / blockSize + 1) ∧
      ((offset + src.length) / blockSize < n → c.used t = c.used s) := by
  have hdirect := hharmless.1
  have hsmall : inodeNumDirect * blockSize ≤ 65535 := by decide
  obtain ⟨inode', g', hrun, hsize, hgrown, hused⟩ :=
    h.grown.inodeWrite hroom hoffset (hdirect.le.trans hsmall)
  have hfollows := h.tracks.inodeWrite hharmless
  rw [hrun] at hfollows
  obtain ⟨⟨_, t⟩, hcall, rfl, htracks⟩ := hfollows.ok_of_not id
  refine ⟨_, t, g', hcall, hsize, ⟨htracks, hgrown, ?_⟩, fun hinside => ?_⟩
  · have hn := h.direct
    have hold : inode.entry.numBytes.toNat < inodeNumDirect * blockSize := by
      rcases h.grown.count with hcount | ⟨-, hzero⟩
      · unfold inodeNumDirect blockSize at *
        omega
      · rw [hzero]
        decide
    rw [hsize]
    unfold inodeNumDirect blockSize at *
    omega
  · rw [← htracks.used, ← h.tracks.used]
    exact hused hinside

/-- By induction over the writes: each of them keeps the number of blocks right if and only if it
does not end at a boundary. -/
theorem GrownDirect.allocatesExactly_iff (h : c.GrownDirect sb base inode s g n)
    (hexact : inode.entry.Exact (c.castMem s)) (hroom : numSlots ≤ (c.pool \ base).card)
    {writes : List (Nat × List UInt8)} (hlegal : LegalWrites inode.entry.numBytes.toNat writes)
    (hharmless : HarmlessWrites sb cache inode s writes) :
    AllocatesExactly sb cache c.castMem c.used inode s writes ↔
      OffBoundary inode.entry.numBytes.toNat writes := by
  induction writes generalizing inode s g n with
  | nil => exact ⟨fun _ => trivial, fun _ => hexact⟩
  | cons w writes ih =>
    obtain ⟨offset, src⟩ := w
    obtain ⟨hoffset, hend, hlegal⟩ := hlegal
    obtain ⟨hwrite, hharmless⟩ := hharmless
    obtain ⟨inode', t, g', hrun, hsize, hgrown, hused⟩ := h.inodeWrite hroom hoffset hwrite
    have hexact' := hgrown.exact_iff.trans hgrown.grown.exact_iff
    have hrest := fun hexact => ih hgrown hexact (hsize ▸ hlegal) (hharmless _ _ hrun)
    rw [OffBoundary, ← hsize]
    constructor
    · rintro ⟨-, inode'', t', hrun', -, hwrites⟩
      rw [hrun] at hrun'
      cases hrun'
      exact ⟨hexact'.mp hwrites.exact, (hrest hwrites.exact).mp hwrites⟩
    · rintro ⟨hoff, hwrites⟩
      refine ⟨hexact, inode', t, hrun, fun hinside => hused ?_, (hrest (hexact'.mpr hoff)).mpr hwrites⟩
      have hexact := h.exact_iff.mp hexact
      rw [InsideBlocks, InodeEntry.addr_of_indirect_eq_zero (h.grown.indirect_eq_zero h.direct) _
        (c.contentsIdeal.mem g)] at hinside
      have hle := h.grown.end_le hexact hoffset hend hinside
      have hcount := (h.grown.dense.exact_iff h.grown.le_maxBlocks).mp hexact
      unfold blockSize at *
      omega

end BlockCache.Structs

/-- Harmless writes to a new inode allocate exactly the blocks that the file needs if and only if
none of them leaves the file with a size that is a multiple of the size of a block. -/
theorem writes_allocateExactly_iff {σ : Type} {cache : BlockCache σ} (c : cache.Structs)
    (sb : SuperBlock) (s : σ) (hused : ∀ i < sb.numInodes.toNat, toBlockNo sb i ∈ c.used s)
    (hroom : numSlots ≤ (c.pool \ c.used s).card) {type : UInt16} {n : Nat} {t : σ}
    (halloc : inodeAlloc sb cache type s = .ok (n, t)) (junk : InodeEntry) :
    ∃ inode u, inodeLoad sb cache n junk t = .ok (inode, u) ∧
      ∀ writes, LegalWrites 0 writes → HarmlessWrites sb cache inode u writes →
        (AllocatesExactly sb cache c.castMem c.used inode u writes ↔ OffBoundary 0 writes) := by
  have hdata := (BlockCache.inodeAlloc_onData sb cache type s).trans halloc
  obtain ⟨inode, u, hload, hgrown⟩ := BlockCache.Ideal.inodeAlloc_grown c.dataIdeal hused hdata junk
  refine ⟨inode, u, hload, fun writes hlegal hharmless => ?_⟩
  obtain ⟨-, hzero⟩ := hgrown.count.resolve_left (Nat.succ_ne_zero _).symm
  have hind := hgrown.indirect_eq_zero (Nat.zero_le _)
  obtain ⟨g, htracks⟩ := (BlockCache.Structs.Loaded.of_data hgrown.loaded hind).tracks
  have hdense := InodeEntry.dense_of_indirect_eq_zero hind _ (c.contentsIdeal.mem g) hgrown.dense
  have hstart : c.GrownDirect sb (c.used s) inode u g 0 :=
    ⟨htracks, ⟨htracks.loaded, hdense, .inr ⟨rfl, hzero⟩⟩, Nat.zero_le _⟩
  have hexact : inode.entry.Exact (c.contentsIdeal.mem g) := by
    rw [hstart.grown.dense.exact_iff hstart.grown.le_maxBlocks, hzero]
    rfl
  have hsize : inode.entry.numBytes.toNat = 0 := by
    rw [hzero]
    rfl
  rw [← hsize] at hlegal ⊢
  exact hstart.allocatesExactly_iff (hstart.exact_iff.mpr hexact) hroom hlegal hharmless

/-- `block_no` of block `1000` with the other members before `data`. -/
def structHeader : List UInt8 := (List.range dataOffset).map (structs 1000)

/-- The header over itself with three bytes, and two bytes more. -/
theorem writes_allocateExactly_iff_two : ∃ n t inode u,
    inodeAlloc (smallSuperBlock 20) structMock 2 ⟨fun _ => .zero, {100}⟩ = .ok (n, t) ∧
    inodeLoad (smallSuperBlock 20) structMock n .zero t = .ok (inode, u) ∧
    AllocatesExactly (smallSuperBlock 20) structMock structMockStructs.castMem
      structMockStructs.used inode u [(0, structHeader ++ [1, 2, 3]), (67, [8, 9])] := by
  obtain ⟨_, hcalls⟩ := exists_ok (x := do
    let a ← inodeAlloc (smallSuperBlock 20) structMock 2 ⟨fun _ => .zero, {100}⟩
    let g ← inodeLoad (smallSuperBlock 20) structMock a.1 .zero a.2
    let w ← inodeWrite (smallSuperBlock 20) structMock.guarded g.1 (structHeader ++ [1, 2, 3]) 0 g.2
    inodeWrite (smallSuperBlock 20) structMock.guarded w.1 [8, 9] 67 w.2) (by decide +kernel)
  obtain ⟨⟨n, t⟩, halloc, hcalls⟩ := bind_eq_ok.mp hcalls
  obtain ⟨⟨inode, u⟩, hload, hcalls⟩ := bind_eq_ok.mp hcalls
  obtain ⟨⟨inode₁, t₁⟩, hfirst, hsecond⟩ := bind_eq_ok.mp hcalls
  obtain ⟨_, _, hload', hwrites⟩ := writes_allocateExactly_iff structMockStructs (smallSuperBlock 20) _
    mockCache_used mockCache_room halloc .zero
  rw [hload] at hload'
  cases hload'
  refine ⟨n, t, inode, u, halloc, hload, (hwrites _ ?_ ?_).mpr ?_⟩
  · exact ⟨by decide, by decide, by decide, by decide, trivial⟩
  · have hharmless : structMock.Harmless (smallSuperBlock 20) inode (structHeader ++ [1, 2, 3]) 0 u := by
      refine ⟨by decide, fun hfault => ?_⟩
      cases hfirst.symm.trans hfault
    refine ⟨hharmless, fun inode' t' hrun => ⟨⟨by decide, fun hfault => ?_⟩, fun _ _ _ => trivial⟩⟩
    rw [← hharmless.eq_guarded, hfirst] at hrun
    cases hrun
    cases hsecond.symm.trans hfault
  · exact ⟨by decide, by decide, trivial⟩

/-- A write of no bytes makes a new file own a block, and one of 512 bytes makes it own two. -/
theorem inodeWrite_allocates_surplus : ∃ n t inode u,
    inodeAlloc (smallSuperBlock 20) structMock 2 ⟨fun _ => .zero, {100}⟩ = .ok (n, t) ∧
    inodeLoad (smallSuperBlock 20) structMock n .zero t = .ok (inode, u) ∧
    (∃ inode' v, inodeWrite (smallSuperBlock 20) structMock inode [] 0 u = .ok (inode', v) ∧
      inode'.entry.numBytes.toNat = 0 ∧
        inode'.entry.numDataBlocks (structMockStructs.castMem v) = 1) ∧
    ∃ inode' v, inodeWrite (smallSuperBlock 20) structMock inode
        (structHeader ++ List.replicate 447 7) 0 u = .ok (inode', v) ∧
      inode'.entry.numBytes.toNat = 512 ∧
        inode'.entry.numDataBlocks (structMockStructs.castMem v) = 2 := by
  obtain ⟨_, hcalls⟩ := exists_ok (x := do
    let a ← inodeAlloc (smallSuperBlock 20) structMock 2 ⟨fun _ => .zero, {100}⟩
    let g ← inodeLoad (smallSuperBlock 20) structMock a.1 .zero a.2
    let w ← inodeWrite (smallSuperBlock 20) structMock g.1 [] 0 g.2
    let v ← inodeWrite (smallSuperBlock 20) structMock g.1 (structHeader ++ List.replicate 447 7) 0
      g.2
    kassert (w.1.entry.numBytes.toNat = 0 ∧
      w.1.entry.numDataBlocks (structMockStructs.castMem w.2) = 1 ∧
      v.1.entry.numBytes.toNat = 512 ∧
      v.1.entry.numDataBlocks (structMockStructs.castMem v.2) = 2) "blocks") (by decide +kernel)
  obtain ⟨⟨n, t⟩, halloc, hcalls⟩ := bind_eq_ok.mp hcalls
  obtain ⟨⟨inode, u⟩, hload, hcalls⟩ := bind_eq_ok.mp hcalls
  obtain ⟨⟨inode₁, t₁⟩, hempty, hcalls⟩ := bind_eq_ok.mp hcalls
  obtain ⟨⟨inode₂, t₂⟩, hblock, hcalls⟩ := bind_eq_ok.mp hcalls
  obtain ⟨hsize₁, hcount₁, hsize₂, hcount₂⟩ := kassert_eq_ok.mp hcalls
  exact ⟨n, t, inode, u, halloc, hload, ⟨inode₁, t₁, hempty, hsize₁, hcount₁⟩, inode₂, t₂, hblock,
    hsize₂, hcount₂⟩

end KernelAarch64.Fs
