import KernelAarch64.Fs.Inode.ByteArray

/-!
# The two block maps of an inode

`inode_map` finds the block for an offset and allocates it when there is none; `inode_map2`, which
`inode_read` uses, only finds it. They are written separately and agree: over any calls of
`inode_map` in any order, a block stays where it was first put, and no two offsets in different
blocks of the file share one.

The proof of `inodeMap_agrees` needs no induction over the calls but the one for `Owns`
(`owns_of_mapCalls`): what a further call does is in `inodeMap_cases`, and once the block is mapped
both functions find it (`inodeMap_of_mapped`, `inodeMap2_spec`).
-/

namespace KernelAarch64.Fs

open KernelAarch64.Lib

variable {σ : Type} {cache : BlockCache σ}

/-- The inode and the cache after any calls of `inode_map` that return, in any order of the
positions and with any value of `*modified`. -/
inductive MapCalls (cache : BlockCache σ) (inode₀ : Inode) (s₀ : σ) : Inode → σ → Prop
  | start : MapCalls cache inode₀ s₀ inode₀ s₀
  | call {inode inode' : Inode} {s t : σ} {offset b : Nat} {modified modified' : Bool} :
    MapCalls cache inode₀ s₀ inode s →
    inodeMap cache inode offset modified s = .ok (b, inode', modified', t) →
    MapCalls cache inode₀ s₀ inode' t

namespace BlockCache.Ideal

variable {c : cache.Ideal} {base : Finset Nat} {inode inode' inode₀ : Inode} {s s₀ t : σ}
  {offset b k : Nat} {modified modified' : Bool} {Q : Prop}

/-- A call that returns has an offset that a file can have. -/
theorem offset_lt_of_inodeMap
    (h : inodeMap cache inode offset modified s = .ok (b, inode', modified', t)) :
    offset < inodeMaxBytes := by
  obtain ⟨_, hoffset, -⟩ := bind_eq_ok.mp h
  exact kassert_eq_ok.mp hoffset

/-- What a call that returns has done. -/
theorem Owns.of_inodeMap (howns : c.Owns base inode.entry s) (halloc : c.AllocOr base Q)
    (h : inodeMap cache inode offset modified s = .ok (b, inode', modified', t)) :
    c.Mapped base inode s (offset / blockSize) b inode' t ∧
      c.Fills (slotsFor (offset / blockSize)) inode s inode' t := by
  rcases inodeMap_cases howns halloc (offset_lt_of_inodeMap h) modified with
    ⟨b', inode'', modified'', t', hok, hmapped, hfills, -⟩ | ⟨-, e, herr⟩
  · rw [h] at hok
    cases hok
    exact ⟨hmapped, hfills⟩
  · rw [h] at herr
    cases herr

/-- A block that is mapped is found, and nothing changes: neither the entry nor the content of a
block nor the blocks in use. -/
theorem inodeMap_of_mapped (hoffset : offset < inodeMaxBytes)
    (haddr : inode.entry.addr (c.mem s) (offset / blockSize) ≠ 0) (modified : Bool) :
    ∃ t, inodeMap cache inode offset modified s =
        .ok (inode.entry.addr (c.mem s) (offset / blockSize), inode, modified, t) ∧
      c.mem t = c.mem s ∧ c.used t = c.used s := by
  unfold inodeMap
  rw [kassert_of hoffset, ok_bind]
  by_cases hk : offset / blockSize < inodeNumDirect
  · rw [InodeEntry.addr_direct hk] at haddr ⊢
    simp only [hk, dif_pos, inodeMapDirect]
    rw [if_pos (toNat_eq_zero.not.mp haddr)]
    exact ⟨s, rfl, rfl, rfl⟩
  · have hind : inode.entry.indirect ≠ 0 := by
      intro hzero
      exact haddr (InodeEntry.addr_of_no_indirect hk hzero)
    rw [InodeEntry.addr_indirect hk hind] at haddr ⊢
    obtain ⟨s₁, hacq, hmem₁, hused₁⟩ := c.acquire inode.entry.indirect.toNat s
    obtain ⟨t, hrel, hmem, hused⟩ := c.release inode.entry.indirect.toNat s₁
    rw [hmem₁] at hmem
    have hentry : (c.mem t inode.entry.indirect.toNat).u32
        (offset / blockSize - inodeNumDirect) ≠ 0 := by
      rw [hmem]
      exact toNat_eq_zero.not.mp haddr
    have hensure : ensureIndirect cache inode modified s = .ok (inode, modified, s) := if_neg hind
    simp only [hk, dif_neg, not_false_eq_true, inodeMapIndirect, hensure, ok_bind, hacq, hrel,
      c.bytes, if_pos hentry]
    refine ⟨t, ?_, hmem, hused.trans hused₁⟩
    rw [hmem]
    rfl

/-- Another block of the file stays where it is, or where it is not. -/
theorem Fills.addr_of_ne (h : c.Fills (slotsFor k) inode s inode' t) {j : Nat}
    (hj : j < inodeMaxBlocks) (hjk : j ≠ k) :
    inode'.entry.addr (c.mem t) j = inode.entry.addr (c.mem s) j := by
  rcases h.slot j (Nat.lt_succ_of_lt hj) with hsame | ⟨hmem, -⟩
  · rwa [InodeEntry.slot_of_lt hj, InodeEntry.slot_of_lt hj] at hsame
  · rcases hmem with heq | ⟨heq, -⟩
    · exact absurd heq hjk
    · exact absurd heq (Nat.ne_of_lt hj)

/-- The blocks of an inode are its own after any calls. -/
theorem owns_of_mapCalls (halloc : c.AllocOr base Q) (hstart : c.Owns base inode₀.entry s₀)
    (h : MapCalls cache inode₀ s₀ inode s) : c.Owns base inode.entry s := by
  induction h with
  | start => exact hstart
  | call _ hcall ih => exact (ih.of_inodeMap halloc hcall).1.owns

/-- **The block maps agree.** Take an inode that had no block and any calls of `inode_map`, and one
more. The block it returns is the one that `inode_map`, without a change, and `inode_map2` return
for every offset in the same block of the file; no other block of the file is mapped elsewhere; and
an offset in another block gets another block, which is not the indirect block either. -/
theorem inodeMap_agrees (c : cache.Ideal)
    (hfull : ∀ s, c.pool ⊆ c.used s → ∃ e, cache.alloc s = .error e)
    (haddrs : ∀ i, inode₀.entry.addrs i = 0) (hind : inode₀.entry.indirect = 0)
    (hrun : MapCalls cache inode₀ s₀ inode s)
    (hmap : inodeMap cache inode offset modified s = .ok (b, inode', modified', t)) :
    b ≠ 0 ∧
    (∀ offset', offset' / blockSize = offset / blockSize → ∀ m, ∃ u,
      inodeMap cache inode' offset' m t = .ok (b, inode', m, u) ∧ c.used u = c.used t ∧
        c.mem u = c.mem t) ∧
    (∀ offset', offset' / blockSize = offset / blockSize → ∃ u,
      inodeMap2 cache inode' offset' t = .ok (b, u)) ∧
    (∀ offset' m b' inode'' m' u, offset' / blockSize ≠ offset / blockSize →
      inodeMap cache inode' offset' m t = .ok (b', inode'', m', u) →
        b' ≠ b ∧ b' ≠ inode''.entry.indirect.toNat ∧ b ≠ inode''.entry.indirect.toNat) ∧
    ∀ k < inodeMaxBlocks, k ≠ offset / blockSize →
      inode'.entry.addr (c.mem t) k = inode.entry.addr (c.mem s) k := by
  have halloc : c.AllocOr (c.used s₀) True := allocOr_of_full hfull
  have howns := owns_of_mapCalls halloc (owns_of_no_blocks haddrs hind rfl) hrun
  obtain ⟨hmapped, hfills⟩ := howns.of_inodeMap halloc hmap
  have hoffset := offset_lt_of_inodeMap hmap
  have hk := div_lt_inodeMaxBlocks hoffset
  have hne : inode'.entry.addr (c.mem t) (offset / blockSize) ≠ 0 := by
    rw [hmapped.addr]
    exact hmapped.ne_zero
  -- an offset in a block that a file can have is one that a file can have
  have hsame : ∀ offset', offset' / blockSize = offset / blockSize → offset' < inodeMaxBytes := by
    intro offset' heq
    rw [inodeMaxBytes_eq] at hoffset ⊢
    unfold blockSize at heq
    omega
  refine ⟨hmapped.ne_zero, ?_, ?_, ?_, fun k hk hne => hfills.addr_of_ne hk hne⟩
  · intro offset' heq m
    obtain ⟨u, hu, hmem, hused⟩ := inodeMap_of_mapped (c := c) (hsame offset' heq)
      (by rw [heq]; exact hne) m
    rw [heq, hmapped.addr] at hu
    exact ⟨u, hu, hused, hmem⟩
  · intro offset' heq
    obtain ⟨u, hu, -⟩ := inodeMap2_spec (c := c) (hsame offset' heq) (by rw [heq]; exact hne)
    rw [heq, hmapped.addr] at hu
    exact ⟨u, hu⟩
  · intro offset' m b' inode'' m' u hother hmap'
    obtain ⟨hmapped', hfills'⟩ := hmapped.owns.of_inodeMap halloc hmap'
    have hk' := div_lt_inodeMaxBlocks (offset_lt_of_inodeMap hmap')
    -- the first block is still there
    have hstay : inode''.entry.addr (c.mem u) (offset / blockSize) = b :=
      (hfills'.addr_of_ne hk hother.symm).trans hmapped.addr
    have hne' : inode''.entry.addr (c.mem u) (offset' / blockSize) ≠ 0 := by
      rw [hmapped'.addr]
      exact hmapped'.ne_zero
    have hne'' : inode''.entry.addr (c.mem u) (offset / blockSize) ≠ 0 := by
      rw [hstay]
      exact hmapped.ne_zero
    refine ⟨?_, ?_, ?_⟩
    · intro hbb
      apply hother
      apply hmapped'.owns.addr_inj hk' hk hne'
      rw [hmapped'.addr, hstay, hbb]
    · rw [← hmapped'.addr]
      exact hmapped'.owns.addr_ne_indirect hk' hne'
    · rw [← hstay]
      exact hmapped'.owns.addr_ne_indirect hk hne''

end BlockCache.Ideal

/-- The first block of a new inode that the indirect block points to. -/
theorem inodeMap_agrees_indirect : ∃ b inode modified t u,
    inodeMap mockCache ⟨2, true, .zero⟩ 6144 false ⟨fun _ => .zero, {100}⟩ =
      .ok (b, inode, modified, t) ∧ b ≠ 0 ∧ inodeMap2 mockCache inode 6655 t = .ok (b, u) := by
  obtain ⟨⟨b, inode, modified, t⟩, hmap⟩ := exists_ok
    (x := inodeMap mockCache ⟨2, true, .zero⟩ 6144 false ⟨fun _ => .zero, {100}⟩)
    (by decide +kernel)
  obtain ⟨hb, -, hmap2, -⟩ := BlockCache.Ideal.inodeMap_agrees mockCacheIdeal mockCache_full
    (fun _ => rfl) rfl .start hmap
  obtain ⟨u, hu⟩ := hmap2 6655 (by decide)
  exact ⟨b, inode, modified, t, u, hmap, hb, hu⟩

end KernelAarch64.Fs
