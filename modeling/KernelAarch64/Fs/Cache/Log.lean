import KernelAarch64.Fs.Cache.Rep

/-!
# The log: `commit` and `unsafe_crash_recover`

The log of the block cache is a redo log: header block `log_start`, slot `i` in block
`log_start + 1 + i`. `commit_eq` and `unsafeCrashRecover_eq` say that the two functions make
exactly the device writes of the protocol of `Lib.RedoLog`, as long as the header fits its block
and the log area (`Cache.Fits`) and no logged block lies in the log area.

Both equations are proved the same way. The loop over the entries is a fold, and the state after `n`
turns is given in closed form (`commitLogState`, `foldl_installCopy_device`), so that the induction
over `n` has nothing to find; the fold over all entries is then the list of writes that
`RedoLog.commitWrites` and `RedoLog.redo` name. The crash argument itself is in `Lib.RedoLog` and
knows nothing of the cache. What callers need of `cache_end_op` is in `cacheEndOp_last` and
`Cache.Fits.disk_committed`; `commit_frame` and `commit_count` hold without `Cache.Fits` and serve
the accounting.
-/

namespace KernelAarch64.Fs

open KernelAarch64.Lib

/-- The log area `[log_start, log_start + num_log_blocks)`. -/
def logArea (sb : SuperBlock) (b : Nat) : Prop :=
  sb.logStart.toNat ≤ b ∧ b < sb.logStart.toNat + sb.numLogBlocks.toNat

instance (sb : SuperBlock) (b : Nat) : Decidable (logArea sb b) := by
  unfold logArea
  infer_instance

/-- The header block is in the log area. -/
theorem hdr_mem_logArea {sb : SuperBlock} (hlog : 0 < sb.numLogBlocks.toNat) :
    logArea sb sb.logStart.toNat := ⟨Nat.le_refl _, Nat.lt_add_of_pos_right hlog⟩

/-- The capacity of the log: one block for each slot behind the header, and one entry for each
element of `header.block_no`. -/
def logCapacity (sb : SuperBlock) : Nat := min (sb.numLogBlocks.toNat - 1) logMaxSize

/-- The header a block holds. -/
def diskHeader (d : BlockData) : LogHeader := LogHeader.load ⟨0, fun _ => 0⟩ d

/-- The log area as a redo log: where its header and its slots are, and which home each slot of a
written header belongs to. -/
def redoLog (sb : SuperBlock) : RedoLog Nat BlockData where
  hdr := sb.logStart.toNat
  slot i := sb.logStart.toNat + 1 + i
  readable d := (diskHeader d).numBlocks ≤ logMaxSize
  homes d := (diskHeader d).entries
  slot_injective i j h := Nat.add_left_cancel h
  slot_ne_hdr i h := by omega

@[simp] theorem redoLog_hdr (sb : SuperBlock) : (redoLog sb).hdr = sb.logStart.toNat := rfl

@[simp] theorem redoLog_slot (sb : SuperBlock) (i : Nat) :
    (redoLog sb).slot i = sb.logStart.toNat + 1 + i := rfl

/-- The home of slot `i` is entry `i` of the header. -/
theorem redoLog_homes (sb : SuperBlock) (d : BlockData) :
    (redoLog sb).homes d = (diskHeader d).entries := by
  simp only [redoLog]

theorem redoLog_readable (sb : SuperBlock) (d : BlockData) :
    (redoLog sb).readable d ↔ (diskHeader d).numBlocks ≤ logMaxSize := Iff.rfl

/-- Loading takes the count as it stands on the disk, however large it is. -/
theorem numBlocks_load (h : LogHeader) (d : BlockData) : (h.load d).numBlocks = d.u64 0 := rfl

/-- A readable header is the same whatever memory it is read over. -/
theorem entries_load (h : LogHeader) {d : BlockData} (hd : (diskHeader d).numBlocks ≤ logMaxSize) :
    (h.load d).entries = (diskHeader d).entries := by
  have hnum : (h.load d).numBlocks = (diskHeader d).numBlocks := by
    rw [diskHeader, numBlocks_load, numBlocks_load]
  rw [LogHeader.entries, LogHeader.entries, hnum]
  apply List.map_congr_left
  intro i hi
  have hlt : i < logMaxSize := by
    have : i < (diskHeader d).numBlocks := by simpa using hi
    omega
  simp [diskHeader, LogHeader.load, hlt]

/-- A header that is written and read again lists the same blocks. -/
theorem homes_toBlock (sb : SuperBlock) (h : LogHeader) (hn : h.numBlocks ≤ logMaxSize)
    (hb : ∀ b ∈ h.entries, b < 2 ^ 64) : (redoLog sb).homes h.toBlock = h.entries := by
  rw [redoLog_homes, diskHeader, LogHeader.entries_load_toBlock _ h hn hb]

/-- A header that fits is readable once it is written. -/
theorem readable_toBlock (sb : SuperBlock) (h : LogHeader) (hn : h.numBlocks ≤ logMaxSize) :
    (redoLog sb).readable h.toBlock := by
  rw [redoLog_readable, diskHeader, numBlocks_load, LogHeader.u64_toBlock_zero]
  exact Nat.le_trans (Nat.mod_le _ _) hn

/-- An empty header lists nothing, whatever its entries still hold. -/
theorem homes_toBlock_clear (sb : SuperBlock) (h : LogHeader) :
    (redoLog sb).homes h.clear.toBlock = [] := by
  rw [redoLog_homes, diskHeader]
  exact LogHeader.entries_of_numBlocks (LogHeader.numBlocks_load_toBlock_clear _ h)

theorem readable_toBlock_clear (sb : SuperBlock) (h : LogHeader) :
    (redoLog sb).readable h.clear.toBlock :=
  readable_toBlock sb h.clear (Nat.zero_le _)

/-- The device after some more writes. -/
def Device.append (dev : Device) (ws : List (Nat × BlockData)) : Device :=
  { dev with writes := dev.writes ++ ws }

@[simp] theorem Device.disk_append (dev : Device) (ws : List (Nat × BlockData)) :
    (dev.append ws).disk = applyWrites dev.disk ws :=
  applyWrites_append dev.initial dev.writes ws

@[simp] theorem Device.append_nil (dev : Device) : dev.append [] = dev := by
  simp [append]

@[simp] theorem Device.write_append (dev : Device) (ws : List (Nat × BlockData)) (b : Nat)
    (d : BlockData) : (dev.append ws).write b d = dev.append (ws ++ [(b, d)]) := by
  simp [append, write]

@[simp] theorem Device.append_append (dev : Device) (ws vs : List (Nat × BlockData)) :
    (dev.append ws).append vs = dev.append (ws ++ vs) := by
  simp [append]

@[simp] theorem Device.initial_append (dev : Device) (ws : List (Nat × BlockData)) :
    (dev.append ws).initial = dev.initial := rfl

@[simp] theorem Device.writes_append (dev : Device) (ws : List (Nat × BlockData)) :
    (dev.append ws).writes = dev.writes ++ ws := rfl

/-! ## `unsafe_crash_recover`

The function reads the header from the disk into memory, copies every slot home and clears the
header on the disk. It trusts the count it reads: with a count past `LOG_MAX_SIZE` it would read
past the block, and `RedoLog.Sound` excludes that. -/

section Recover

variable (sb : SuperBlock)

/-- Copying home changes the device only. -/
theorem foldl_installCopy (l : List Nat) (s : Cache) :
    l.foldl (installCopy sb) s = { s with device := (l.foldl (installCopy sb) s).device } := by
  induction l generalizing s with
  | nil => rfl
  | cons i l ih => rw [List.foldl_cons, ih, installCopy]; rfl

@[simp] theorem readHeader_device (s : Cache) : (readHeader sb s).device = s.device := rfl

theorem readHeader_header (s : Cache) :
    (readHeader sb s).header = s.header.load (s.device.disk sb.logStart.toNat) := rfl

/-- Recovery touches only the header and the device, and leaves the header empty. -/
theorem unsafeCrashRecover_frame (s : Cache) : ∃ h : LogHeader, ∃ dev : Device,
    unsafeCrashRecover sb s = { s with header := h.clear, device := dev } := by
  refine ⟨(readHeader sb s).header, (unsafeCrashRecover sb s).device, ?_⟩
  rw [unsafeCrashRecover, foldl_installCopy]
  rfl

/-- The writes of the loop of recovery, with the slots read from the disk `d`. -/
def installs (h : LogHeader) (d : Disk) (n : Nat) : List (Nat × BlockData) :=
  (List.range n).map fun i => (h.blockNo i, d (sb.logStart.toNat + 1 + i))

/-- While the copies go home, the slots keep their content: no logged block is one of the slots of
the log. The induction is on the number of copies. -/
theorem foldl_installCopy_device {s : Cache}
    (hslot : ∀ i < s.header.numBlocks, ∀ b ∈ s.header.entries, b ≠ sb.logStart.toNat + 1 + i)
    {n : Nat} (hn : n ≤ s.header.numBlocks) :
    ((List.range n).foldl (installCopy sb) s).device =
      s.device.append (installs sb s.header s.device.disk n) := by
  induction n with
  | zero => simp [installs]
  | succ n ih =>
    have ih := ih (by omega)
    -- Slot `n` is none of the blocks written so far.
    have hread : applyWrites s.device.disk (installs sb s.header s.device.disk n)
        (sb.logStart.toNat + 1 + n) = s.device.disk (sb.logStart.toNat + 1 + n) := by
      apply applyWrites_of_notMem
      simp only [installs, List.map_map, List.mem_map, not_exists, not_and]
      intro i hi
      have hi : i < n := by simpa using hi
      apply hslot n (by omega)
      exact List.mem_map_of_mem (List.mem_range.mpr (by omega))
    rw [List.range_succ, List.foldl_append, List.foldl_cons, List.foldl_nil, foldl_installCopy,
      installCopy, ih, Cache.deviceWrite_device, Device.read, Device.disk_append, hread,
      Device.write_append]
    simp [installs, List.range_succ]

/-- The writes of recovery are those of the redo log that the disk holds. -/
theorem installs_eq_redo {h : LogHeader} {d : Disk}
    (hd : h.entries = (redoLog sb).homes (d sb.logStart.toNat)) :
    installs sb h d h.numBlocks = (redoLog sb).redo d := by
  rw [RedoLog.redo, redoLog_hdr, ← hd]
  apply List.ext_getElem
  · simp [installs]
  · intro i h₁ h₂
    simp [installs, LogHeader.entries]

/-- Recovery makes the writes of a redo log: each slot of the header goes home, then an empty header
is written. The slots are not overwritten on the way, as no home lies in the log area. -/
theorem unsafeCrashRecover_eq {s : Cache}
    (hs : (redoLog sb).Sound (logArea sb) s.device.disk) :
    unsafeCrashRecover sb s =
      { s with
        header := (s.header.load (s.device.disk sb.logStart.toNat)).clear
        device := s.device.append ((redoLog sb).redo s.device.disk ++
          [(sb.logStart.toNat,
            (s.header.load (s.device.disk sb.logStart.toNat)).clear.toBlock)]) } := by
  -- The header as recovery reads it.
  have hentries : (readHeader sb s).header.entries =
      (redoLog sb).homes (s.device.disk sb.logStart.toNat) := by
    have hread : (diskHeader (s.device.disk sb.logStart.toNat)).numBlocks ≤ logMaxSize :=
      hs.readable
    rw [readHeader_header, redoLog_homes, entries_load s.header hread]
  have hslot : ∀ i < (readHeader sb s).header.numBlocks,
      ∀ b ∈ (readHeader sb s).header.entries, b ≠ sb.logStart.toNat + 1 + i := by
    rintro i hi b hb rfl
    rw [hentries] at hb
    rw [← LogHeader.length_entries, hentries] at hi
    exact hs.home_notMem _ hb (hs.slot_mem i hi)
  have hdev : ((List.range (readHeader sb s).header.numBlocks).foldl (installCopy sb)
      (readHeader sb s)).device = s.device.append ((redoLog sb).redo s.device.disk) := by
    rw [foldl_installCopy_device sb hslot (Nat.le_refl _)]
    rw [readHeader_device, installs_eq_redo sb (d := s.device.disk) hentries]
  rw [unsafeCrashRecover, foldl_installCopy, hdev, writeHeader, Cache.deviceWrite,
    Device.write_append]
  rfl

end Recover

/-! ## `commit`

`commit` copies the cached blocks to their slots and unpins them, writes the header, and then does
what recovery does. Only the write of the header decides: before it the old content is recovered,
after it the new one. -/

/-- The ring with the blocks `bs` unpinned. -/
def unpinAll (bs : List Nat) (l : List Block) : List Block :=
  l.map fun blk => if blk.blockNo ∈ bs then blk.unpin else blk

theorem unpinAll_nil (l : List Block) : unpinAll [] l = l := by
  simp [unpinAll]

/-- Unpinning one block more. -/
theorem unpinAll_concat (bs : List Nat) (b : Nat) (l : List Block) :
    unpinAll (bs ++ [b]) l = setCache b Block.unpin (unpinAll bs l) := by
  simp only [unpinAll, setCache, List.map_map]
  apply List.map_congr_left
  intro blk _
  simp only [Function.comp, List.mem_append, List.mem_singleton]
  by_cases hbs : blk.blockNo ∈ bs
  · simp only [hbs, true_or, if_true]
    split <;> rfl
  · simp only [hbs, false_or, if_false]

theorem map_blockNo_unpinAll (bs : List Nat) (l : List Block) :
    (unpinAll bs l).map Block.blockNo = l.map Block.blockNo := by
  simp only [unpinAll, List.map_map]
  apply List.map_congr_left
  intro blk _
  simp only [Function.comp]
  split <;> rfl

/-- Looking a block up after the unpinning. -/
theorem getCache_unpinAll (bs : List Nat) (b : Nat) (l : List Block) :
    getCache b (unpinAll bs l) =
      (getCache b l).map fun blk => if b ∈ bs then blk.unpin else blk := by
  induction l with
  | nil => rfl
  | cons a l ih =>
    have hno : ∀ c : Prop, [Decidable c] → (if c then a.unpin else a).blockNo = a.blockNo := by
      intro c _
      split <;> rfl
    by_cases hb : a.blockNo = b
    · simp [getCache, unpinAll, hno, hb]
    · simpa [getCache, unpinAll, hno, hb] using ih

/-- The copy of a block after the blocks `bs` are unpinned. -/
theorem CopyAt.unpinAll {Q : Block → Prop} {b : Nat} {s t : Cache} {bs : List Nat}
    (h : CopyAt Q b s) (hunpin : ∀ blk, Q blk → Q blk.unpin)
    (ht : t.blocks = unpinAll bs s.blocks) : CopyAt Q b t := by
  intro blk hblk
  rw [ht, getCache_unpinAll, Option.map_eq_some_iff] at hblk
  obtain ⟨a, ha, rfl⟩ := hblk
  split
  · exact hunpin a (h a ha)
  · exact h a ha

/-- The state of `commit` after the loop over the blocks `bs`: their copies are in the slots, and
they are unpinned. -/
def commitLogState (sb : SuperBlock) (s : Cache) (bs : List Nat) : Cache :=
  { s with
    blocks := unpinAll bs s.blocks
    device := s.device.append ((redoLog sb).copies bs s.dataOf) }

/-- The loop of `commit` copies every logged block to its slot and unpins it. By induction on the
entries from the last one on; each of them is found, as it is pinned. -/
theorem commitLog_eq (sb : SuperBlock) {s : Cache} (h : s.Rep) :
    commitLog sb s = .ok (commitLogState sb s s.header.entries) := by
  have hloop : ∀ n ≤ s.header.numBlocks, (List.range n).foldlM (commitCopy sb) s =
      .ok (commitLogState sb s ((List.range n).map s.header.blockNo)) := by
    intro n hn
    induction n with
    | zero => simp [commitLogState, unpinAll_nil, RedoLog.copies]; rfl
    | succ n ih =>
      have hmem : s.header.blockNo n ∈ s.header.entries :=
        List.mem_map_of_mem (by simp; omega)
      obtain ⟨blk, hblk⟩ := h.getCache_entries hmem
      rw [List.range_succ, List.foldlM_append, ih (by omega)]
      simp only [ok_bind, List.foldlM_cons, List.foldlM_nil, commitCopy, commitLogState,
        getCache_unpinAll, hblk, Option.map_some]
      have hdata : ∀ c : Prop, [Decidable c] → (if c then blk.unpin else blk).data = blk.data := by
        intro c _
        split <;> rfl
      simp [Cache.deviceWrite, Cache.setBlock, unpinAll_concat, hdata, RedoLog.copies,
        List.zipIdx_append, Cache.dataOf, hblk, pure, Except.pure]
  exact hloop _ (Nat.le_refl _)

/-- The header fits its block and the log area, and the logged blocks lie outside the log area. -/
structure Cache.Fits (sb : SuperBlock) (s : Cache) : Prop where
  capacity : s.header.numBlocks ≤ logCapacity sb
  usize : ∀ b ∈ s.header.entries, b < 2 ^ 64
  home : ∀ b ∈ s.header.entries, ¬ logArea sb b

theorem Cache.Fits.le_logMaxSize {sb : SuperBlock} {s : Cache} (h : s.Fits sb) :
    s.header.numBlocks ≤ logMaxSize :=
  Nat.le_trans h.capacity (Nat.min_le_right _ _)

/-- The slots that a header needs are in the log area, and none of them is a home. -/
theorem Cache.Fits.room {sb : SuperBlock} {s : Cache} (h : s.Fits sb)
    (hlog : 0 < sb.numLogBlocks.toNat) : (redoLog sb).Room (logArea sb) s.header.entries := by
  refine ⟨hdr_mem_logArea hlog, ?_, h.home⟩
  intro i hi
  have hcap : s.header.numBlocks ≤ sb.numLogBlocks.toNat - 1 :=
    Nat.le_trans h.capacity (Nat.min_le_left _ _)
  rw [LogHeader.length_entries] at hi
  simp only [logArea, redoLog_slot]
  omega

/-- The block the header is cleared with at the end of `commit`. -/
def clearedHeader (s : Cache) : BlockData := (s.header.load s.header.toBlock).clear.toBlock

/-- What `commit` leaves: the writes of a redo log commit, no pinned block, an empty header. With
the log in its area every step of it goes through. -/
theorem commit_eq {sb : SuperBlock} {s : Cache} (h : s.Rep) (hf : s.Fits sb)
    (hlog : 0 < sb.numLogBlocks.toNat) :
    commit sb s = .ok
      { s with
        header := (s.header.load s.header.toBlock).clear
        blocks := unpinAll s.header.entries s.blocks
        device := s.device.append ((redoLog sb).commitWrites s.header.entries s.dataOf
          s.header.toBlock (clearedHeader s)) } := by
  have hhomes : (redoLog sb).homes s.header.toBlock = s.header.entries :=
    homes_toBlock sb s.header hf.le_logMaxSize hf.usize
  obtain ⟨hsound, -⟩ := (hf.room hlog).sound_commit s.device.disk s.dataOf
    (readable_toBlock sb s.header hf.le_logMaxSize) hhomes
  -- The device once the header is written.
  have hdev : (writeHeader sb (commitLogState sb s s.header.entries)).device =
      s.device.append ((redoLog sb).copies s.header.entries s.dataOf ++
        [((redoLog sb).hdr, s.header.toBlock)]) := by
    rw [writeHeader, Cache.deviceWrite_device, commitLogState, Device.write_append]
    rfl
  rw [← Device.disk_append, ← hdev] at hsound
  have hread : (writeHeader sb (commitLogState sb s s.header.entries)).device.disk
      sb.logStart.toNat = s.header.toBlock := by
    rw [hdev, Device.disk_append]
    simp
  have hredo : (redoLog sb).redo
      (writeHeader sb (commitLogState sb s s.header.entries)).device.disk =
      s.header.entries.map fun a => (a, s.dataOf a) := by
    rw [hdev, Device.disk_append, RedoLog.redo_commit s.device.disk s.dataOf hhomes]
  rw [commit, commitLog_eq sb h, ok_bind, unsafeCrashRecover_eq sb hsound, hread, hredo, hdev,
    Device.append_append]
  rfl

/-- `commit` returns whenever the representation invariant holds, also with a header that does
not fit. -/
theorem commit_frame (sb : SuperBlock) {s : Cache} (h : s.Rep) : ∃ g : LogHeader, ∃ dev : Device,
    commit sb s = .ok { s with
      header := g.clear, blocks := unpinAll s.header.entries s.blocks, device := dev } := by
  obtain ⟨g, dev, hrec⟩ :=
    unsafeCrashRecover_frame sb (writeHeader sb (commitLogState sb s s.header.entries))
  refine ⟨g, dev, ?_⟩
  rw [commit, commitLog_eq sb h, ok_bind, hrec]
  rfl

/-- One turn of the loop of `commit` changes the blocks and the device. -/
theorem commitCopy_frame {sb : SuperBlock} {s s' : Cache} {i : Nat}
    (h : commitCopy sb s i = .ok s') :
    s'.header = s.header ∧ s'.outstanding = s.outstanding := by
  unfold commitCopy at h
  split at h
  · cases h
  · cases h
    exact ⟨rfl, rfl⟩

/-- Whatever the state, a `commit` that returns leaves an empty header. The other counters are not
its business. -/
theorem commit_count {sb : SuperBlock} {s s' : Cache} (h : commit sb s = .ok s') :
    s'.header.numBlocks = 0 ∧ s'.outstanding = s.outstanding := by
  obtain ⟨t, ht, h⟩ := bind_eq_ok.mp h
  have hloop : ∀ (l : List Nat) (u : Cache), l.foldlM (commitCopy sb) u = .ok t →
      t.outstanding = u.outstanding := by
    intro l
    induction l with
    | nil =>
      intro u hu
      cases hu
      rfl
    | cons i l ih =>
      intro u hu
      rw [List.foldlM_cons] at hu
      obtain ⟨v, hv, hu⟩ := bind_eq_ok.mp hu
      rw [ih v hu, (commitCopy_frame hv).2]
  obtain ⟨g, dev, hrec⟩ := unsafeCrashRecover_frame sb (writeHeader sb t)
  rw [hrec] at h
  cases h
  exact ⟨rfl, hloop _ s ht⟩

namespace Cache.Rep

variable {s s' : Cache} {sb : SuperBlock}

/-- With every logged block unpinned and the header empty the invariant holds again: the pinned
blocks were exactly those in the header. -/
theorem unpinAll (h : s.Rep) (g : LogHeader) (dev : Device) :
    ({ s with header := g.clear, blocks := Fs.unpinAll s.header.entries s.blocks,
              device := dev } : Cache).Rep := by
  constructor
  case count => simpa [Fs.unpinAll] using h.count
  case nodup => simpa [map_blockNo_unpinAll] using h.nodup
  case entries_nodup => simp
  case pinned_iff =>
    intro blk hblk
    obtain ⟨a, ha, rfl⟩ := List.mem_map.mp hblk
    have := h.pinned_iff a ha
    simp only [LogHeader.entries_clear, List.not_mem_nil, iff_false]
    split
    · simp [Block.unpin]
    · next hno => simpa [hno] using this
  case cached => simp
  case acquired_eq =>
    intro blk hblk
    obtain ⟨a, ha, rfl⟩ := List.mem_map.mp hblk
    have := h.acquired_eq a ha
    split <;> exact this
  case valid =>
    intro blk hblk
    obtain ⟨a, ha, rfl⟩ := List.mem_map.mp hblk
    have := h.valid a ha
    split <;> exact this

/-- `commit` keeps the representation invariant. -/
theorem commit (h : s.Rep) (hs : commit sb s = .ok s') : s'.Rep := by
  obtain ⟨g, dev, heq⟩ := commit_frame sb h
  rw [heq] at hs
  cases hs
  exact h.unpinAll g dev

end Cache.Rep

/-- `cache_end_op`: the last outstanding operation commits, the others leave their reservation
behind. -/
theorem cacheEndOp_eq_ok {sb : SuperBlock} {c : OpContext} {s s' : Cache} :
    cacheEndOp sb c s = .ok s' ↔
      (s.outstanding = 1 ∧ ∃ t, commit sb s = .ok t ∧
        s' = { t with endPending := 0, outstanding := t.outstanding - 1 }) ∨
      (s.outstanding ≠ 1 ∧
        s' = { s with
          endPending := s.endPending + c.opsCnt, outstanding := s.outstanding - 1 }) := by
  unfold cacheEndOp
  split
  · next h =>
    constructor
    · intro hs
      obtain ⟨t, ht, hs'⟩ := bind_eq_ok.mp hs
      cases hs'
      exact .inl ⟨h, t, ht, rfl⟩
    · rintro (⟨-, t, ht, rfl⟩ | ⟨h', -⟩)
      · exact bind_eq_ok.mpr ⟨t, ht, rfl⟩
      · exact absurd h h'
  · next h => simp [h, eq_comm]

/-- The cache after the last outstanding operation has committed: what `cache_end_op` leaves when
`outstanding` is 1. -/
def Cache.committed (sb : SuperBlock) (s : Cache) : Cache :=
  { s with
    header := (s.header.load s.header.toBlock).clear
    outstanding := s.outstanding - 1
    endPending := 0
    blocks := unpinAll s.header.entries s.blocks
    device := s.device.append ((redoLog sb).commitWrites s.header.entries s.dataOf
      s.header.toBlock (clearedHeader s)) }

/-- The last outstanding operation commits, and panics for nothing. -/
theorem cacheEndOp_last {sb : SuperBlock} {s : Cache} (h : s.Rep) (hf : s.Fits sb)
    (hlog : 0 < sb.numLogBlocks.toNat) (hlast : s.outstanding = 1) (c : OpContext) :
    cacheEndOp sb c s = .ok (s.committed sb) :=
  cacheEndOp_eq_ok.mpr (.inl ⟨hlast, _, commit_eq h hf hlog, rfl⟩)

/-- Outside the log area, a commit installs the logged blocks and leaves the others alone. -/
theorem Cache.Fits.disk_committed {sb : SuperBlock} {s : Cache} (hf : s.Fits sb)
    (hlog : 0 < sb.numLogBlocks.toNat) {b : Nat} (hb : ¬ logArea sb b) :
    (s.committed sb).device.disk b =
      if b ∈ s.header.entries then s.dataOf b else s.device.disk b := by
  rw [committed, Device.disk_append, (hf.room hlog).commit s.device.disk s.dataOf
    (readable_toBlock sb s.header hf.le_logMaxSize)
    (homes_toBlock sb s.header hf.le_logMaxSize hf.usize) (clearedHeader s) hb, applyWrites_map]

/-- The header block of the device is clear after a commit. -/
theorem Cache.hdr_committed (sb : SuperBlock) (s : Cache) :
    (s.committed sb).device.disk sb.logStart.toNat = clearedHeader s := by
  rw [committed, Device.disk_append, RedoLog.commitWrites, ← List.append_assoc, redoLog_hdr,
    applyWrites_concat, Function.update_self]

/-- `cache_end_op` keeps the representation invariant, whether it commits or not. -/
theorem Cache.Rep.endOp {sb : SuperBlock} {c : OpContext} {s s' : Cache} (h : s.Rep)
    (hs : cacheEndOp sb c s = .ok s') : s'.Rep := by
  rcases cacheEndOp_eq_ok.mp hs with ⟨-, t, ht, rfl⟩ | ⟨-, rfl⟩
  · have ht := h.commit ht
    exact ⟨ht.count, ht.nodup, ht.entries_nodup, ht.pinned_iff, ht.cached, ht.acquired_eq,
      ht.valid⟩
  · exact ⟨h.count, h.nodup, h.entries_nodup, h.pinned_iff, h.cached, h.acquired_eq, h.valid⟩

/-- `init_bcache` leaves an empty cache and an empty log. -/
theorem initBcache_eq (sb : SuperBlock) (d : Disk) : ∃ h : LogHeader, ∃ dev : Device,
    initBcache sb d =
      { header := h.clear, outstanding := 0, endPending := 0, cachedNum := 0, blocks := [],
        device := dev } :=
  unsafeCrashRecover_frame sb _

/-- The invariant holds when `init_bcache` returns. -/
theorem initBcache_rep (sb : SuperBlock) (d : Disk) : (initBcache sb d).Rep := by
  obtain ⟨h, dev, heq⟩ := initBcache_eq sb d
  rw [heq]
  constructor <;> simp

end KernelAarch64.Fs
