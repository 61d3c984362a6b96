import KernelAarch64.Fs.Inode.StructDirectory

/-!
# Inode entries are written through

Each call that changes the entry of an inode in memory decides for itself whether to store it. All
of them do but one: when `inode_remove` removes the last entry of a directory, it takes `num_bytes`
back in memory and does not store it. Every other call leaves the stored entry equal to the one in
memory, so `inode_get` reads it again.

What is stored is in `data` of the inode block, which `inode_sync` addresses right, but a write to a
data block of the inode goes through a cast. So the calls are over structs (`BlockCache.Structs`),
and nothing is said about what a write does that is not harmless. The entries are followed over
plain content (`Synced.call`), which a sequence of harmless calls does not leave
(`Tracks.writesThrough_iff`). -/

namespace KernelAarch64.Fs

open KernelAarch64.Lib

/-- The calls that may change the entry of an inode. The `count` of `inode_write` is a `usize`. -/
inductive EntryOp where
  | write (src : List UInt8) (count_lt : src.length < 2 ^ 64) (offset : Nat)
  | clear
  | insert (name : List UInt8) (inodeNo : Nat)
  | remove (index : Nat)
  | sync

variable {σ : Type}

/-- The inode and the state of the cache after a call. What else a call returns is not needed to say
whether its entry was stored. -/
def EntryOp.call (sb : SuperBlock) (cache : BlockCache σ) (inode : Inode) (s : σ) :
    EntryOp → Except Stop (Inode × σ)
  | .write src _ offset => inodeWrite sb cache inode src offset s
  | .clear => inodeClear sb cache inode s
  | .insert name inodeNo => do
    let (_, inode, s) ← inodeInsert sb cache inode name inodeNo s
    return (inode, s)
  | .remove index => inodeRemove sb cache inode index s
  | .sync => inodeSync sb cache inode true s

/-- `inode_remove` of the entry that the directory ends with: `num_bytes` becomes `index`. With
`index` `65520`, `num_bytes` has wrapped around to `0` before. -/
def EntryOp.RemovesLast (inode : Inode) : EntryOp → Prop
  | .remove index => index < inode.entry.numBytes.toNat ∧
      inode.entry.numBytes.toNat ≤ index + dirEntrySize ∧ index + dirEntrySize < 65536
  | _ => False

/-- No call of the sequence that returns removes the last entry of a directory. That is the call
after which the size on the disk is not the one in memory. -/
def AvoidsLast (sb : SuperBlock) (cache : BlockCache σ) : Inode → σ → List EntryOp → Prop
  | _, _, [] => True
  | inode, s, op :: ops => ∀ inode' t, op.call sb cache inode s = .ok (inode', t) →
      ¬ op.RemovesLast inode ∧ AvoidsLast sb cache inode' t ops

/-- The writes of the call are harmless, and `inode_clear` finds no indirect block, whose elements
it would read through a cast. -/
def EntryOp.Harmless (sb : SuperBlock) (cache : BlockCache σ) (inode : Inode) (s : σ) : EntryOp → Prop
  | .write src _ offset => cache.Harmless sb inode src offset s
  | .clear => inode.entry.indirect = 0
  | .insert name inodeNo => cache.HarmlessInsert sb inode name inodeNo s
  | .remove index => cache.HarmlessRemove sb inode index s
  | .sync => True

/-- All calls of the sequence are harmless, each on the inode and the state that those before it
have left. -/
def HarmlessOps (sb : SuperBlock) (cache : BlockCache σ) : Inode → σ → List EntryOp → Prop
  | _, _, [] => True
  | inode, s, op :: ops => op.Harmless sb cache inode s ∧
      ∀ inode' t, op.call sb cache inode s = .ok (inode', t) → HarmlessOps sb cache inode' t ops

namespace BlockCache.Structs

variable {cache : BlockCache σ}

/-- The stored entry of the inode is its entry in memory, and when the last `inode_put` keeps the
inode, then `inode_get` loads the same entry again. -/
def Through (c : cache.Structs) (sb : SuperBlock) (inode : Inode) (s : σ) : Prop :=
  c.entryOf sb s inode.inodeNo = inode.entry ∧
    (inode.entry.numLinks ≠ 0 ∨ inode.inodeNo = 1 → ∀ junk, ∃ inode' t u,
      inodePutLast sb cache inode s = .ok (inode', t) ∧
      inodeLoad sb cache inode.inodeNo junk t = .ok (inode, u))

/-- After every call of the sequence that returns, the stored entry is the entry in memory. -/
def WritesThrough (c : cache.Structs) (sb : SuperBlock) : Inode → σ → List EntryOp → Prop
  | _, _, [] => True
  | inode, s, op :: ops => ∀ inode' t, op.call sb cache inode s = .ok (inode', t) →
      c.Through sb inode' t ∧ c.WritesThrough sb inode' t ops

end BlockCache.Structs

namespace BlockCache.Ideal

variable {cache : BlockCache σ} {c : cache.Ideal} {sb : SuperBlock} {base : Finset Nat}
  {inode inode' : Inode} {s t : σ}

/-- The inode is loaded and stored as it is in memory, the root as a directory. The last part is
since `inode_get` makes the root one, whatever is stored. -/
structure Synced (c : cache.Ideal) (sb : SuperBlock) (base : Finset Nat) (inode : Inode) (s : σ) :
    Prop where
  loaded : c.Loaded sb base inode s
  stored : c.entryOf sb s inode.inodeNo = inode.entry
  root : inode.inodeNo = 1 → inode.entry.type = inodeDirectory

/-! ## Calls

Over plain content. A call that does not change the entry need not store it, and none of them stores
an entry that is not the one in memory. -/

/-- `inode_write` stores what it changes: if the size or an address is another one, its last step is
`inode_sync`. -/
theorem Synced.inodeWrite {Q : Prop} (h : c.Synced sb base inode s) (halloc : c.AllocOr base Q)
    {src : List UInt8} {offset : Nat} (hsrc : src.length < 2 ^ 64)
    (hcall : inodeWrite sb cache inode src offset s = .ok (inode', t)) :
    c.Synced sb base inode' t ∧ inode'.inodeNo = inode.inodeNo ∧
      inode'.entry.numBytes = .ofNat (max (offset + src.length) inode.entry.numBytes.toNat) := by
  obtain ⟨hloaded, hno, htype, hbytes, hstored⟩ := h.loaded.inodeWrite halloc hsrc hcall
  refine ⟨⟨hloaded, ?_, ?_⟩, hno, hbytes⟩
  · rw [hno]
    rcases hstored with hstored | ⟨rfl, hsame⟩
    · exact hstored
    · exact hsame.trans h.stored
  · intro hroot
    rw [htype]
    exact h.root (hno ▸ hroot)

/-- `inode_clear` stores the entry. -/
theorem Synced.inodeClear (h : c.Synced sb base inode s)
    (hcall : inodeClear sb cache inode s = .ok (inode', t)) : c.Synced sb base inode' t := by
  obtain ⟨u, hclear, hloaded, -, hmem⟩ := h.loaded.inodeClear
  rw [hclear] at hcall
  cases hcall
  refine ⟨hloaded, ?_, h.root⟩
  rw [Inode.cleared_inodeNo, entryOf_putEntry (hmem _ h.loaded.block), if_pos rfl]

/-- `inode_sync` stores the entry. -/
theorem Synced.inodeSync (h : c.Synced sb base inode s)
    (hcall : inodeSync sb cache inode true s = .ok (inode', t)) : c.Synced sb base inode' t := by
  obtain ⟨u, hsync, hloaded, hstored, -⟩ := h.loaded.inodeSync
  rw [hsync] at hcall
  cases hcall
  exact ⟨hloaded, hstored, h.root⟩

/-- `inode_insert` is a write. -/
theorem Synced.inodeInsert {Q : Prop} (h : c.Synced sb base inode s) (halloc : c.AllocOr base Q)
    {name : List UInt8} {inodeNo index : Nat}
    (hcall : inodeInsert sb cache inode name inodeNo s = .ok (index, inode', t)) :
    c.Synced sb base inode' t := by
  obtain ⟨_, -, hcall⟩ := bind_eq_ok.mp hcall
  obtain ⟨_, -, hcall⟩ := bind_eq_ok.mp hcall
  obtain ⟨_, -, hcall⟩ := bind_eq_ok.mp hcall
  obtain ⟨⟨inode₁, s₁⟩, hwrite, hcall⟩ := bind_eq_ok.mp hcall
  cases hcall
  refine (h.inodeWrite halloc ?_ hwrite).1
  rw [DirEntry.length_bytes (length_strncpy _ _)]
  decide

/-- `inode_remove` stores what it changes, unless it removes the last entry: then the stored
`num_bytes` is another one. -/
theorem Synced.inodeRemove {Q : Prop} (h : c.Synced sb base inode s) (halloc : c.AllocOr base Q)
    {index : Nat} (hcall : inodeRemove sb cache inode index s = .ok (inode', t)) :
    (¬ (EntryOp.remove index).RemovesLast inode → c.Synced sb base inode' t) ∧
      ((EntryOp.remove index).RemovesLast inode →
        c.entryOf sb t inode'.inodeNo ≠ inode'.entry) := by
  obtain ⟨_, -, hcall⟩ := bind_eq_ok.mp hcall
  obtain ⟨_, -, hcall⟩ := bind_eq_ok.mp hcall
  obtain ⟨_, -, hcall⟩ := bind_eq_ok.mp hcall
  split at hcall
  · next hle =>
    cases hcall
    exact ⟨fun _ => h, fun hlast => absurd hlast.1 (Nat.not_lt.mpr hle)⟩
  · next hlt =>
    obtain ⟨⟨inode₁, s₁⟩, hwrite, hcall⟩ := bind_eq_ok.mp hcall
    obtain ⟨hsynced, -, hbytes⟩ := h.inodeWrite halloc
      (by rw [List.length_replicate]; decide) hwrite
    rw [List.length_replicate] at hbytes
    have hval : inode₁.entry.numBytes.toNat =
        max (index + dirEntrySize) inode.entry.numBytes.toNat % 65536 := by
      rw [hbytes, UInt16.toNat_ofNat']
    have hnum := inode.entry.numBytes.toNat_lt
    -- `num_bytes` after the write is the end of the removed entry
    have hiff : index + dirEntrySize = inode₁.entry.numBytes.toNat ↔
        (EntryOp.remove index).RemovesLast inode := by
      rw [hval]
      unfold EntryOp.RemovesLast dirEntrySize fileNameMaxLength
      omega
    dsimp only at hcall
    split at hcall
    · next heq =>
      cases hcall
      refine ⟨fun hother => absurd (hiff.mp heq) hother, ?_⟩
      intro _ hstored
      have hbytes' := congrArg (fun e => e.numBytes.toNat) (hsynced.stored.symm.trans hstored)
      have hindex : ((inode₁.setNumBytes (.ofNat index)).entry.numBytes).toNat ≤ index := by
        show (UInt16.ofNat index).toNat ≤ index
        rw [UInt16.toNat_ofNat']
        exact Nat.mod_le _ _
      unfold dirEntrySize at heq
      omega
    · next hne =>
      cases hcall
      exact ⟨fun _ => hsynced, fun hlast => absurd (hiff.mpr hlast) hne⟩

/-- Every call stores what it changes, but the removal of the last entry of a directory. -/
theorem Synced.call {Q : Prop} (h : c.Synced sb base inode s) (halloc : c.AllocOr base Q)
    {op : EntryOp} (hcall : op.call sb cache inode s = .ok (inode', t)) :
    (¬ op.RemovesLast inode → c.Synced sb base inode' t) ∧
      (op.RemovesLast inode → c.entryOf sb t inode'.inodeNo ≠ inode'.entry) := by
  cases op with
  | write src count_lt offset =>
    exact ⟨fun _ => (h.inodeWrite halloc count_lt hcall).1, False.elim⟩
  | clear => exact ⟨fun _ => h.inodeClear hcall, False.elim⟩
  | insert name inodeNo =>
    obtain ⟨⟨index, inode₁, s₁⟩, hinsert, heq⟩ := bind_eq_ok.mp hcall
    cases heq
    exact ⟨fun _ => h.inodeInsert halloc hinsert, False.elim⟩
  | remove index => exact h.inodeRemove halloc hcall
  | sync => exact ⟨fun _ => h.inodeSync hcall, False.elim⟩

end BlockCache.Ideal

namespace BlockCache.Structs

variable {cache : BlockCache σ} {c : cache.Structs} {sb : SuperBlock} {base : Finset Nat}
  {inode inode' : Inode} {s t : σ} {g : σ × Disk}

/-! ## Sequences of calls

By induction over the calls, with `Tracks` between the structs and the plain content. -/

/-- A harmless call does what it does over plain content, whichever of the calls it is. The cases
are those of the operations. -/
theorem Tracks.call (h : c.Tracks sb base inode s g) {op : EntryOp}
    (hharmless : op.Harmless sb cache inode s) :
    Follows .fault False (fun r r' => r.1 = r'.1 ∧ c.Tracks sb base r.1 r.2 r'.2)
      (op.call sb cache inode s) (op.call sb c.contents inode g) := by
  cases op with
  | write src count_lt offset => exact h.inodeWrite hharmless
  | clear => exact h.inodeClear hharmless
  | insert name inodeNo =>
    refine (h.inodeInsert hharmless).bind ?_
    rintro ⟨index, inode', t⟩ ⟨_, _, g'⟩ ⟨rfl, rfl, ht⟩
    exact .ok ⟨rfl, ht⟩
  | remove index => exact h.inodeRemove hharmless
  | sync => exact h.inodeSync

/-- An inode that is stored as it is in memory is loaded again as it is. Loading goes through
`data`, so the headers do not matter. -/
theorem Tracks.through (h : c.Tracks sb base inode s g) (hs : c.contentsIdeal.Synced sb base inode g) :
    c.Through sb inode s := by
  have hstored : c.entryOf sb s inode.inodeNo = inode.entry := h.entryOf.trans hs.stored
  refine ⟨hstored, ?_⟩
  intro hkeep junk
  have hput : inodePutLast sb cache inode s = .ok (inode, s) := by
    rw [inodePutLast, if_neg (by simp only [not_and_or, not_not]; exact hkeep)]
    rfl
  have htype : (c.dataIdeal.entryOf sb s inode.inodeNo).type ≠ inodeInvalid := by
    show (c.entryOf sb s inode.inodeNo).type ≠ inodeInvalid
    rw [hstored]
    exact h.loaded.type
  obtain ⟨u, hload, -⟩ :=
    BlockCache.Ideal.inodeLoad_spec c.dataIdeal h.loaded.inodeNo htype junk
  have hsame : BlockCache.Ideal.loadedEntry inode.inodeNo
      (c.dataIdeal.entryOf sb s inode.inodeNo) = inode.entry := by
    show BlockCache.Ideal.loadedEntry inode.inodeNo (c.entryOf sb s inode.inodeNo) = _
    rw [hstored, BlockCache.Ideal.loadedEntry_eq hs.root]
  rw [hsame, ← h.loaded.valid] at hload
  exact ⟨inode, s, u, hput, hload⟩

/-- The same for a sequence of calls. By induction on it: a call that removes the last entry breaks
it, and every other one keeps it. -/
theorem Tracks.writesThrough_iff (h : c.Tracks sb base inode s g)
    (hs : c.contentsIdeal.Synced sb base inode g) {ops : List EntryOp}
    (hharmless : HarmlessOps sb cache inode s ops) :
    c.WritesThrough sb inode s ops ↔ AvoidsLast sb cache inode s ops := by
  induction ops generalizing inode s g with
  | nil => exact Iff.rfl
  | cons op ops ih =>
    obtain ⟨hop, hharmless⟩ := hharmless
    have hcase : ∀ inode' t, op.call sb cache inode s = .ok (inode', t) → ∃ g',
        c.Tracks sb base inode' t g' ∧
        (¬ op.RemovesLast inode → c.contentsIdeal.Synced sb base inode' g') ∧
        (op.RemovesLast inode → c.entryOf sb t inode'.inodeNo ≠ inode'.entry) := by
      intro inode' t hcall
      have hfollows := h.call hop
      rw [hcall] at hfollows
      obtain ⟨⟨_, g'⟩, hrun, rfl, ht⟩ := hfollows.of_ok
      obtain ⟨hkeep, hlose⟩ := hs.call (BlockCache.Ideal.allocOr_of_full c.contents_full) hrun
      refine ⟨g', ht, hkeep, fun hlast => ?_⟩
      rw [ht.entryOf]
      exact hlose hlast
    constructor
    · intro hthrough inode' t hcall
      obtain ⟨g', ht, hkeep, hlose⟩ := hcase inode' t hcall
      obtain ⟨hstored, hrest⟩ := hthrough inode' t hcall
      have hother : ¬ op.RemovesLast inode := fun hlast => hlose hlast hstored.1
      exact ⟨hother, (ih ht (hkeep hother) (hharmless _ _ hcall)).mp hrest⟩
    · intro havoids inode' t hcall
      obtain ⟨g', ht, hkeep, -⟩ := hcase inode' t hcall
      obtain ⟨hother, hrest⟩ := havoids inode' t hcall
      exact ⟨ht.through (hkeep hother), (ih ht (hkeep hother) (hharmless _ _ hcall)).mpr hrest⟩

end BlockCache.Structs

/-- After every call on an inode that `inode_get` returned, the stored entry is the entry in memory,
exactly if no call of the sequence removes the last entry of a directory. The calls are harmless,
the blocks in the entry belong to the inode, and the root is stored as a directory. -/
theorem inode_writesThrough_iff {cache : BlockCache σ} (c : cache.Structs) {sb : SuperBlock}
    {base : Finset Nat} {n : Nat} {junk : InodeEntry} {inode : Inode} {s t : σ}
    (hload : inodeLoad sb cache n junk s = .ok (inode, t))
    (howns : Slots (inodeNumDirect + 1) (c.entryOf sb s n).ownBlock base (c.used s))
    (hblock : toBlockNo sb n ∈ base) (hroot : n = 1 → (c.entryOf sb s n).type = inodeDirectory)
    {ops : List EntryOp} (hharmless : HarmlessOps sb cache inode t ops) :
    c.WritesThrough sb inode t ops ↔ AvoidsLast sb cache inode t ops := by
  obtain ⟨rfl, hentry, hloaded⟩ :=
    BlockCache.Structs.Loaded.of_inodeLoad hload howns hblock hroot
  obtain ⟨g, htracks⟩ := hloaded.tracks
  exact htracks.writesThrough_iff ⟨htracks.loaded, htracks.entryOf.symm.trans hentry, hroot⟩ hharmless

/-- A directory of 96 bytes that loses its last entry. The size shrinks in memory, and the stored
entry has the old one. -/
theorem removing_the_last_entry_is_not_stored :
    inodeLoad (smallSuperBlock 20) structMock 2 .zero (structFileState inodeDirectory 96) =
        .ok (structFile inodeDirectory 96, structFileState inodeDirectory 96) ∧
      ¬ structMockStructs.WritesThrough (smallSuperBlock 20) (structFile inodeDirectory 96)
        (structFileState inodeDirectory 96) [.remove 80] := by
  refine ⟨structFile_load 96 (by decide), ?_⟩
  intro hthrough
  obtain ⟨_, hrun⟩ := exists_ok (x := do
    let (inode, s) ← (EntryOp.remove 80).call (smallSuperBlock 20) structMock
      (structFile inodeDirectory 96) (structFileState inodeDirectory 96)
    kassert (inode.entry.numBytes = 80 ∧
      (structMockStructs.entryOf (smallSuperBlock 20) s inode.inodeNo).numBytes = 96) "sizes")
    (by decide +kernel)
  obtain ⟨⟨inode, s⟩, hremove, hrun⟩ := bind_eq_ok.mp hrun
  obtain ⟨hmemory, hstored⟩ := kassert_eq_ok.mp hrun
  obtain ⟨⟨heq, -⟩, -⟩ := hthrough _ _ hremove
  rw [heq, hmemory] at hstored
  cases hstored

/-- A directory of 96 bytes that gets an entry. The insertion is harmless there, and the new size is
stored with it. -/
theorem inode_writesThrough_iff_insert :
    structMockStructs.WritesThrough (smallSuperBlock 20) (structFile inodeDirectory 96)
      (structFileState inodeDirectory 96) [.insert [97] 5, .sync] := by
  have hslots := @structFile_slots inodeDirectory 96
  rw [← structFile_entryOf] at hslots
  obtain ⟨_, hguarded⟩ := exists_ok (x := inodeWrite (smallSuperBlock 20) structMock.guarded
    (structFile inodeDirectory 96) (BlockCache.Ideal.newEntry [97] 5).bytes 96
    (structFileState inodeDirectory 96)) (by decide +kernel)
  have hharmless : HarmlessOps (smallSuperBlock 20) structMock (structFile inodeDirectory 96)
      (structFileState inodeDirectory 96) [.insert [97] 5, .sync] := by
    refine ⟨⟨by decide, fun hfault => ?_⟩, fun _ _ _ => ⟨trivial, fun _ _ _ => trivial⟩⟩
    cases hguarded.symm.trans hfault
  refine (inode_writesThrough_iff structMockStructs (structFile_load 96 (by decide)) hslots (by decide)
    (fun hroot => absurd hroot (by decide)) hharmless).mpr ?_
  exact fun _ _ _ => ⟨False.elim, fun _ _ _ => ⟨False.elim, trivial⟩⟩

end KernelAarch64.Fs
