import KernelAarch64.Fs.Cache
import KernelAarch64.Lib.RedoLog

/-!
# The representation invariant of the block cache

`Cache.Rep` ties the ring of cached blocks, `cached_num`, the flags of the blocks and the log
header together. Each function of `cache.c` is summed up here by one lemma that says what it does
when it returns, and by one that says it keeps `Rep`.

`commit` and `unsafe_crash_recover` are summed up by the device writes they make
(`commit_eq`, `unsafeCrashRecover_eq`): these are the two halves of a redo log.

The lemmas that end in `_eq_ok` say exactly when a function returns and with which state, so that
later modules need neither its definition nor its asserts. `Cache.Rep` is kept by each of them: by
`Rep.setBlock` where a function only assigns to a block, by `Rep.loadBlock` and `Rep.evict` where
the ring changes, and by `Rep.pushPin` where the header does, which is the only place where a block
is pinned and logged at once. `CopyAt` at the end of the module is the frame of all of this for a
single block: what is said of its cached copy stays true until somebody assigns to it.
-/

namespace KernelAarch64.Fs

open KernelAarch64.Lib

/-! ## Fields of the record

What the helpers leave alone, for the simp set. -/

namespace Cache

variable (s : Cache) (b : Nat) (f : Block → Block) (d : BlockData)

@[simp] theorem setBlock_header : (s.setBlock b f).header = s.header := rfl
@[simp] theorem setBlock_outstanding : (s.setBlock b f).outstanding = s.outstanding := rfl
@[simp] theorem setBlock_endPending : (s.setBlock b f).endPending = s.endPending := rfl
@[simp] theorem setBlock_cachedNum : (s.setBlock b f).cachedNum = s.cachedNum := rfl
@[simp] theorem setBlock_device : (s.setBlock b f).device = s.device := rfl
@[simp] theorem setBlock_blocks : (s.setBlock b f).blocks = setCache b f s.blocks := rfl

@[simp] theorem deviceWrite_header : (s.deviceWrite b d).header = s.header := rfl
@[simp] theorem deviceWrite_outstanding : (s.deviceWrite b d).outstanding = s.outstanding := rfl
@[simp] theorem deviceWrite_endPending : (s.deviceWrite b d).endPending = s.endPending := rfl
@[simp] theorem deviceWrite_cachedNum : (s.deviceWrite b d).cachedNum = s.cachedNum := rfl
@[simp] theorem deviceWrite_blocks : (s.deviceWrite b d).blocks = s.blocks := rfl
@[simp] theorem deviceWrite_device : (s.deviceWrite b d).device = s.device.write b d := rfl

/-- The content of the cached block `b`. -/
def dataOf : BlockData := ((getCache b s.blocks).map Block.data).getD .zero

variable {s b} in
theorem dataOf_of_getCache {blk : Block} (h : getCache b s.blocks = some blk) :
    s.dataOf b = blk.data := by
  simp [dataOf, h]

end Cache

@[simp] theorem Device.disk_write (dev : Device) (b : Nat) (d : BlockData) :
    (dev.write b d).disk = Function.update dev.disk b d :=
  applyWrites_concat dev.initial dev.writes b d

@[simp] theorem Device.initial_write (dev : Device) (b : Nat) (d : BlockData) :
    (dev.write b d).initial = dev.initial := rfl

@[simp] theorem Device.writes_write (dev : Device) (b : Nat) (d : BlockData) :
    (dev.write b d).writes = dev.writes ++ [(b, d)] := rfl

/-- The block as it is read in by `unsafe_cache_acquire`. -/
def Cache.readBlock (s : Cache) (b : Nat) : Block :=
  { initBlock with valid := true, blockNo := b, data := s.device.read b }

section Parts

variable (b : Nat) (s : Cache)

@[simp] theorem loadBlock_header : (loadBlock b s).header = s.header := by
  unfold loadBlock; split <;> rfl
@[simp] theorem loadBlock_outstanding : (loadBlock b s).outstanding = s.outstanding := by
  unfold loadBlock; split <;> rfl
@[simp] theorem loadBlock_endPending : (loadBlock b s).endPending = s.endPending := by
  unfold loadBlock; split <;> rfl
@[simp] theorem loadBlock_device : (loadBlock b s).device = s.device := by
  unfold loadBlock; split <;> rfl

@[simp] theorem evict_header : (evict s).header = s.header := by
  unfold evict; split <;> rfl
@[simp] theorem evict_outstanding : (evict s).outstanding = s.outstanding := by
  unfold evict; split <;> rfl
@[simp] theorem evict_endPending : (evict s).endPending = s.endPending := by
  unfold evict; split <;> rfl
@[simp] theorem evict_device : (evict s).device = s.device := by
  unfold evict; split <;> rfl

/-- A block that has been loaded is cached, with the content of the device unless it was cached
before. -/
theorem getCache_loadBlock_self : getCache b (loadBlock b s).blocks =
    some ((getCache b s.blocks).getD (s.readBlock b)) := by
  unfold loadBlock
  cases h : getCache b s.blocks with
  | some a => exact h
  | none => exact getCache_insertCache_self (s.readBlock b) s.blocks

variable {b s}

/-- Loading a block leaves the others. -/
theorem getCache_loadBlock_of_ne {x : Nat} (hx : x ≠ b) :
    getCache x (loadBlock b s).blocks = getCache x s.blocks := by
  unfold loadBlock
  split
  · rfl
  · exact getCache_insertCache_of_ne (Ne.symm hx) s.blocks

theorem mem_loadBlock {blk : Block} (h : blk ∈ (loadBlock b s).blocks) :
    blk ∈ s.blocks ∨ blk = s.readBlock b := by
  unfold loadBlock at h
  split at h
  · exact .inl h
  · exact (List.mem_cons.mp h).symm

theorem mem_evict {blk : Block} (h : blk ∈ (evict s).blocks) : blk ∈ s.blocks := by
  unfold evict at h
  split at h
  · exact (scavenger_sublist _ _).subset h
  · exact h

/-- A block that is in use is not evicted. -/
theorem getCache_evict_of_busy {blk : Block} (hnodup : (s.blocks.map Block.blockNo).Nodup)
    (h : getCache b s.blocks = some blk) (hbusy : blk.acquired = true ∨ blk.pinned = true) :
    getCache b (evict s).blocks = some blk := by
  unfold evict
  split
  · exact getCache_scavenger_of_busy hnodup h hbusy
  · exact h

end Parts

/-! ## What the calls do when they return

Each of these is an equivalence: the functions of `cache.c` are deterministic, and a panic or a
fault is not a return. -/

/-- `unsafe_cache_acquire` loads the block if it is not there, locks it and evicts a block that is
not in use. This is all it does when it returns; callers of the lemma unfold no further. -/
theorem unsafeCacheAcquire_eq_ok {b : Nat} {s s' : Cache} {blk : Block} :
    unsafeCacheAcquire b s = .ok (blk, s') ↔
      ∃ a, getCache b (loadBlock b s).blocks = some a ∧ a.locked = false ∧ blk = a.lock ∧
        s' = evict ((loadBlock b s).setBlock b Block.lock) := by
  unfold unsafeCacheAcquire
  cases h : getCache b (loadBlock b s).blocks with
  | none => simp [h]
  | some a =>
    cases hl : a.locked with
    | true =>
      simp only [h, hl, if_true, reduceCtorEq, false_iff]
      rintro ⟨a', ha', hl', -⟩
      cases ha'
      simp [hl] at hl'
    | false =>
      simp only [h, hl, Bool.false_eq_true, if_false, Except.ok.injEq, Prod.mk.injEq]
      constructor
      · rintro ⟨rfl, rfl⟩
        exact ⟨a, rfl, hl, rfl, rfl⟩
      · rintro ⟨a', ha', -, rfl, rfl⟩
        cases ha'
        exact ⟨rfl, rfl⟩

/-- What is in the ring after an acquisition. -/
theorem mem_acquire {b : Nat} {s s' : Cache} {blk a : Block}
    (h : unsafeCacheAcquire b s = .ok (blk, s')) (ha : a ∈ s'.blocks) :
    ∃ a₀, (a₀ ∈ s.blocks ∨ a₀ = s.readBlock b) ∧ a = if a₀.blockNo = b then a₀.lock else a₀ := by
  obtain ⟨-, -, -, -, rfl⟩ := unsafeCacheAcquire_eq_ok.mp h
  obtain ⟨a₀, ha₀, heq⟩ := mem_setCache.mp (mem_evict ha)
  exact ⟨a₀, mem_loadBlock ha₀, heq⟩

theorem cacheRelease_eq_ok {b : Nat} {s s' : Cache} :
    cacheRelease b s = .ok s' ↔
      (∃ blk, getCache b s.blocks = some blk) ∧ s' = s.setBlock b Block.unlock := by
  unfold cacheRelease
  cases h : getCache b s.blocks with
  | none => simp
  | some blk => simp [eq_comm]

theorem cacheBeginOp_eq_ok {sb : SuperBlock} {s s' : Cache} {c : OpContext} :
    cacheBeginOp sb s = .ok (c, s') ↔
      (s.outstanding + 1) * opMaxNumBlocks + s.endPending ≤ sb.numLogBlocks.toNat ∧
        c = ⟨0⟩ ∧ s' = { s with outstanding := s.outstanding + 1 } := by
  unfold cacheBeginOp
  split
  · next h => simp [Nat.not_le.mpr h]
  · next h => simp [Nat.not_lt.mp h, eq_comm]

/-- The search loop stops at `num_blocks` exactly when the header does not list the block. -/
theorem LogHeader.find_eq_numBlocks (h : LogHeader) (b : Nat) :
    h.find b = h.numBlocks ↔ b ∉ h.entries := by
  unfold LogHeader.find LogHeader.entries
  cases hf : (List.range h.numBlocks).find? fun i => h.blockNo i = b with
  | none =>
    rw [List.find?_eq_none] at hf
    simpa using hf
  | some i =>
    have hi : i < h.numBlocks := by simpa using List.mem_of_find?_eq_some hf
    have hb : h.blockNo i = b := by simpa using List.find?_some hf
    simp only [Option.getD_some, List.mem_map, List.mem_range, not_exists, not_and]
    constructor
    · intro h'
      omega
    · intro h'
      exact absurd hb (h' i hi)

/-- A `sync` under a context logs the block if it is new, pins it and counts it. -/
theorem unsafeCacheSync_ctx {c : OpContext} {b : Nat} {s s' : Cache} {r : Option OpContext} :
    unsafeCacheSync (some c) b s = .ok (r, s') ↔
      (∃ blk, getCache b s.blocks = some blk) ∧
        ((b ∈ s.header.entries ∧ c.opsCnt ≤ opMaxNumBlocks ∧ r = some c ∧
            s' = s.setBlock b Block.pin) ∨
          (b ∉ s.header.entries ∧ c.opsCnt + 1 ≤ opMaxNumBlocks ∧ r = some ⟨c.opsCnt + 1⟩ ∧
            s' = { s with header := s.header.push b }.setBlock b Block.pin)) := by
  unfold unsafeCacheSync
  cases h : getCache b s.blocks with
  | none => simp
  | some blk =>
    simp only [LogHeader.find_eq_numBlocks]
    by_cases hb : b ∈ s.header.entries
    · simp only [hb, not_true_eq_false, if_false]
      split
      · next hc => simp [Nat.not_le.mpr hc]
      · next hc => simp [Nat.not_lt.mp hc, eq_comm]
    · simp only [hb, not_false_eq_true, if_true]
      split
      · next hc => simp [Nat.not_le.mpr hc]
      · next hc => simp [Nat.not_lt.mp hc, eq_comm]

/-- A `sync` without a context writes the block to the device at once. -/
theorem unsafeCacheSync_null {b : Nat} {s s' : Cache} {r : Option OpContext} :
    unsafeCacheSync none b s = .ok (r, s') ↔
      ∃ blk, getCache b s.blocks = some blk ∧ r = none ∧ s' = s.deviceWrite b blk.data := by
  unfold unsafeCacheSync
  cases h : getCache b s.blocks with
  | none => simp
  | some blk => simp [eq_comm]

/-! ## The invariant -/

/-- The representation invariant of the block cache. It is about the ring, the header and the flags
of the blocks; the data of the blocks plays no part in it. -/
structure Cache.Rep (s : Cache) : Prop where
  /-- `cached_num` counts the ring. -/
  count : s.cachedNum = s.blocks.length
  /-- No block is cached twice. -/
  nodup : (s.blocks.map Block.blockNo).Nodup
  /-- No block is logged twice. -/
  entries_nodup : s.header.entries.Nodup
  /-- The pinned blocks are the logged ones. -/
  pinned_iff : ∀ blk ∈ s.blocks, blk.pinned = true ↔ blk.blockNo ∈ s.header.entries
  /-- Logged blocks are cached. -/
  cached : ∀ b ∈ s.header.entries, ∃ blk ∈ s.blocks, blk.blockNo = b
  /-- The flag `acquired` shadows the sleep lock. -/
  acquired_eq : ∀ blk ∈ s.blocks, blk.acquired = blk.locked
  /-- Cached blocks have been read from the device. -/
  valid : ∀ blk ∈ s.blocks, blk.valid = true

namespace Cache.Rep

variable {s s' : Cache} {b : Nat}

theorem getCache_of_mem (h : s.Rep) {blk : Block} (hmem : blk ∈ s.blocks) :
    getCache blk.blockNo s.blocks = some blk :=
  Fs.getCache_of_mem h.nodup hmem

/-- `get_cache` finds every logged block. -/
theorem getCache_entries (h : s.Rep) (hb : b ∈ s.header.entries) :
    ∃ blk, getCache b s.blocks = some blk :=
  getCache_isSome.mpr (h.cached b hb)

/-- Assignments to a block that leave its number, `pinned`, `valid` and the agreement of
`acquired` with the lock alone keep the invariant. -/
theorem setBlock (h : s.Rep) {f : Block → Block} (hno : ∀ blk, (f blk).blockNo = blk.blockNo)
    (hpin : ∀ blk, (f blk).pinned = blk.pinned) (hval : ∀ blk, (f blk).valid = blk.valid)
    (hacq : ∀ blk, blk.acquired = blk.locked → (f blk).acquired = (f blk).locked) (b : Nat) :
    (s.setBlock b f).Rep := by
  constructor
  case count => simpa using h.count
  case nodup => simpa [map_blockNo_setCache hno] using h.nodup
  case entries_nodup => exact h.entries_nodup
  case pinned_iff =>
    intro blk hblk
    obtain ⟨a, ha, rfl⟩ := mem_setCache.mp hblk
    have := h.pinned_iff a ha
    split <;> simpa [hno, hpin] using this
  case cached =>
    intro c hc
    obtain ⟨a, ha, rfl⟩ := h.cached c hc
    refine ⟨_, mem_setCache.mpr ⟨a, ha, rfl⟩, ?_⟩
    split <;> simp [hno]
  case acquired_eq =>
    intro blk hblk
    obtain ⟨a, ha, rfl⟩ := mem_setCache.mp hblk
    have := h.acquired_eq a ha
    split
    · exact hacq a this
    · exact this
  case valid =>
    intro blk hblk
    obtain ⟨a, ha, rfl⟩ := mem_setCache.mp hblk
    have := h.valid a ha
    split <;> simpa [hval] using this

theorem lock (h : s.Rep) (b : Nat) : (s.setBlock b Block.lock).Rep :=
  h.setBlock (f := Block.lock) (fun _ => rfl) (fun _ => rfl) (fun _ => rfl) (fun _ _ => rfl) b

theorem unlock (h : s.Rep) (b : Nat) : (s.setBlock b Block.unlock).Rep :=
  h.setBlock (f := Block.unlock) (fun _ => rfl) (fun _ => rfl) (fun _ => rfl) (fun _ _ => rfl) b

theorem setData (h : s.Rep) (b : Nat) (d : BlockData) : (s.setBlock b (Block.setData d)).Rep :=
  h.setBlock (f := Block.setData d) (fun _ => rfl) (fun _ => rfl) (fun _ => rfl) (fun _ ha => ha) b

theorem deviceWrite (h : s.Rep) (b : Nat) (d : BlockData) : (s.deviceWrite b d).Rep :=
  ⟨h.count, h.nodup, h.entries_nodup, h.pinned_iff, h.cached, h.acquired_eq, h.valid⟩

/-- A block that is read in is neither locked, acquired nor pinned, and its number is not cached
yet. So `cached_num` and the ring grow by the same one. -/
theorem loadBlock (h : s.Rep) (b : Nat) : (loadBlock b s).Rep := by
  unfold Fs.loadBlock
  cases hb : getCache b s.blocks with
  | some blk => exact h
  | none =>
    have hnew : ∀ blk ∈ s.blocks, blk.blockNo ≠ b := getCache_eq_none.mp hb
    -- A logged block is cached, so the block read in is not logged.
    have hlog : b ∉ s.header.entries := by
      intro hmem
      obtain ⟨blk, hblk, hno⟩ := h.cached b hmem
      exact hnew blk hblk hno
    constructor
    case count => simp [insertCache, h.count]
    case nodup =>
      simp only [insertCache, List.map_cons, List.nodup_cons]
      refine ⟨?_, h.nodup⟩
      intro hmem
      obtain ⟨blk, hblk, hno⟩ := List.mem_map.mp hmem
      exact hnew blk hblk hno
    case entries_nodup => exact h.entries_nodup
    case pinned_iff =>
      intro blk hblk
      rcases List.mem_cons.mp hblk with rfl | hblk
      · simp [initBlock, hlog]
      · exact h.pinned_iff blk hblk
    case cached =>
      intro c hc
      obtain ⟨blk, hblk, hno⟩ := h.cached c hc
      exact ⟨blk, List.mem_cons_of_mem _ hblk, hno⟩
    case acquired_eq =>
      intro blk hblk
      rcases List.mem_cons.mp hblk with rfl | hblk
      · rfl
      · exact h.acquired_eq blk hblk
    case valid =>
      intro blk hblk
      rcases List.mem_cons.mp hblk with rfl | hblk
      · rfl
      · exact h.valid blk hblk

/-- `scavenger` takes out blocks that are not in use and counts them down, so the flags and the
header still agree. -/
theorem evict (h : s.Rep) : (evict s).Rep := by
  unfold Fs.evict
  split
  · have hsub : (scavenger s.blocks s.cachedNum).1.Sublist s.blocks := scavenger_sublist _ _
    constructor
    case count =>
      rw [h.count]
      exact scavenger_length s.blocks
    case nodup => exact h.nodup.sublist (hsub.map _)
    case entries_nodup => exact h.entries_nodup
    case pinned_iff => exact fun blk hblk => h.pinned_iff blk (hsub.subset hblk)
    case cached =>
      intro c hc
      obtain ⟨blk, hblk, rfl⟩ := h.cached c hc
      -- A logged block is pinned, and the scavenger leaves pinned blocks alone.
      have hpin : blk.pinned = true := (h.pinned_iff blk hblk).mpr hc
      exact ⟨blk, mem_scavenger_of_busy hblk (.inr hpin), rfl⟩
    case acquired_eq => exact fun blk hblk => h.acquired_eq blk (hsub.subset hblk)
    case valid => exact fun blk hblk => h.valid blk (hsub.subset hblk)
  · exact h

theorem acquire (h : s.Rep) {blk : Block} (hs : unsafeCacheAcquire b s = .ok (blk, s')) :
    s'.Rep := by
  obtain ⟨a, -, -, -, rfl⟩ := unsafeCacheAcquire_eq_ok.mp hs
  exact ((h.loadBlock b).lock b).evict

theorem release (h : s.Rep) (hs : cacheRelease b s = .ok s') : s'.Rep := by
  obtain ⟨-, rfl⟩ := cacheRelease_eq_ok.mp hs
  exact h.unlock b

theorem beginOp (h : s.Rep) {sb : SuperBlock} {c : OpContext}
    (hs : cacheBeginOp sb s = .ok (c, s')) : s'.Rep := by
  obtain ⟨-, -, rfl⟩ := cacheBeginOp_eq_ok.mp hs
  exact ⟨h.count, h.nodup, h.entries_nodup, h.pinned_iff, h.cached, h.acquired_eq, h.valid⟩

/-- Pinning a block that is logged already. The pinned blocks are to be the logged ones, and this
one is logged. -/
theorem pin (h : s.Rep) (hb : b ∈ s.header.entries) : (s.setBlock b Block.pin).Rep := by
  have hsame : setCache b Block.pin s.blocks = s.blocks := by
    conv_rhs => rw [← List.map_id s.blocks]
    apply List.map_congr_left
    intro blk hblk
    split
    · next hno =>
      have hpin : blk.pinned = true := (h.pinned_iff blk hblk).mpr (hno ▸ hb)
      simp [Block.pin, ← hpin]
    · rfl
  have : s.setBlock b Block.pin = s := by
    simp [Cache.setBlock, hsame]
  rw [this]
  exact h

/-- Logging and pinning a new block: the entries of the header and the pinned blocks gain the same
one. -/
theorem pushPin (h : s.Rep) (hb : b ∉ s.header.entries)
    (hcached : ∃ blk, getCache b s.blocks = some blk) :
    ({ s with header := s.header.push b }.setBlock b Block.pin).Rep := by
  constructor
  case count => simpa using h.count
  case nodup => simpa [map_blockNo_setCache (f := Block.pin) (fun _ => rfl)] using h.nodup
  case entries_nodup =>
    simp only [setBlock_header, LogHeader.entries_push]
    rw [List.nodup_append]
    refine ⟨h.entries_nodup, by simp, ?_⟩
    rintro a ha c hc rfl
    exact hb (List.mem_singleton.mp hc ▸ ha)
  case pinned_iff =>
    intro blk hblk
    obtain ⟨a, ha, rfl⟩ := mem_setCache.mp hblk
    have := h.pinned_iff a ha
    split
    · next hno => simp [Block.pin, hno]
    · next hno => simpa [hno] using this
  case cached =>
    intro c hc
    simp only [setBlock_header, LogHeader.entries_push, List.mem_append,
      List.mem_singleton] at hc
    have hex : ∃ blk ∈ s.blocks, blk.blockNo = c := by
      rcases hc with hc | rfl
      · exact h.cached c hc
      · exact getCache_isSome.mp hcached
    obtain ⟨a, ha, rfl⟩ := hex
    refine ⟨_, mem_setCache.mpr ⟨a, ha, rfl⟩, ?_⟩
    split <;> rfl
  case acquired_eq =>
    intro blk hblk
    obtain ⟨a, ha, rfl⟩ := mem_setCache.mp hblk
    have := h.acquired_eq a ha
    split <;> exact this
  case valid =>
    intro blk hblk
    obtain ⟨a, ha, rfl⟩ := mem_setCache.mp hblk
    have := h.valid a ha
    split <;> exact this

theorem sync (h : s.Rep) {c r : Option OpContext}
    (hs : unsafeCacheSync c b s = .ok (r, s')) : s'.Rep := by
  cases c with
  | none =>
    obtain ⟨blk, -, -, rfl⟩ := unsafeCacheSync_null.mp hs
    exact h.deviceWrite b _
  | some c =>
    obtain ⟨hcached, ⟨hb, -, -, rfl⟩ | ⟨hb, -, -, rfl⟩⟩ := unsafeCacheSync_ctx.mp hs
    · exact h.pin hb
    · exact h.pushPin hb hcached

end Cache.Rep

/-! ## The copy of a block in the cache

A predicate of the cached copy is vacuous when the block is not cached. An eviction can then only
help, and a block that is read in has to satisfy the predicate with the content of the device. -/

/-- The cached copy of block `b`, if there is one, satisfies `Q`. -/
def CopyAt (Q : Block → Prop) (b : Nat) (s : Cache) : Prop :=
  ∀ blk, getCache b s.blocks = some blk → Q blk

namespace CopyAt

variable {Q : Block → Prop} {b x : Nat} {s t : Cache}

/-- An assignment through a `Block *`. -/
theorem setBlock (h : CopyAt Q b s) {f : Block → Block} (hno : ∀ blk, (f blk).blockNo = blk.blockNo)
    (hf : x = b → ∀ blk, Q blk → Q (f blk)) : CopyAt Q b (s.setBlock x f) := by
  intro blk hblk
  rw [Cache.setBlock_blocks] at hblk
  by_cases hx : x = b
  · subst hx
    rw [getCache_setCache_self hno, Option.map_eq_some_iff] at hblk
    obtain ⟨a, ha, rfl⟩ := hblk
    exact hf rfl a (h a ha)
  · rw [getCache_setCache_of_ne hno (Ne.symm hx)] at hblk
    exact h blk hblk

/-- What is in the cache after an eviction was there before. -/
theorem evict (h : CopyAt Q b s) (hnodup : (s.blocks.map Block.blockNo).Nodup) :
    CopyAt Q b (evict s) := by
  intro blk hblk
  obtain ⟨hmem, rfl⟩ := getCache_eq_some hblk
  exact h blk (getCache_of_mem hnodup (mem_evict hmem))

/-- A block that is not in the cache is read from the device, and so what holds of the content there
holds of the new copy. -/
theorem loadBlock (h : CopyAt Q b s)
    (hread : x = b → getCache b s.blocks = none → Q (s.readBlock b)) :
    CopyAt Q b (loadBlock x s) := by
  intro blk hblk
  by_cases hx : x = b
  · subst hx
    rw [getCache_loadBlock_self] at hblk
    cases hget : getCache x s.blocks with
    | some a =>
      rw [hget] at hblk
      cases hblk
      exact h a hget
    | none =>
      rw [hget] at hblk
      cases hblk
      exact hread rfl hget
  · rw [getCache_loadBlock_of_ne (Ne.symm hx)] at hblk
    exact h blk hblk

theorem acquire (h : CopyAt Q b s) (hrep : s.Rep)
    (hread : x = b → getCache b s.blocks = none → Q (s.readBlock b))
    (hlock : x = b → ∀ blk, Q blk → Q blk.lock) {blk : Block}
    (hacq : unsafeCacheAcquire x s = .ok (blk, t)) : CopyAt Q b t := by
  obtain ⟨-, -, -, -, rfl⟩ := unsafeCacheAcquire_eq_ok.mp hacq
  refine ((h.loadBlock hread).setBlock (f := Block.lock) (fun _ => rfl) hlock).evict ?_
  exact ((hrep.loadBlock x).lock x).nodup

/-- Other blocks are only evicted. -/
theorem acquire_of_ne (h : CopyAt Q b s) (hrep : s.Rep) (hx : x ≠ b) {blk : Block}
    (hacq : unsafeCacheAcquire x s = .ok (blk, t)) : CopyAt Q b t :=
  h.acquire hrep (fun heq => absurd heq hx) (fun heq => absurd heq hx) hacq

/-- A `sync` pins the block. -/
theorem sync (h : CopyAt Q b s) (hpin : x = b → ∀ blk, Q blk → Q blk.pin)
    {ctx r : Option OpContext} (hsync : unsafeCacheSync ctx x s = .ok (r, t)) : CopyAt Q b t := by
  cases ctx with
  | none =>
    obtain ⟨-, -, -, rfl⟩ := unsafeCacheSync_null.mp hsync
    exact h
  | some ctx =>
    obtain ⟨-, ⟨-, -, -, rfl⟩ | ⟨-, -, -, rfl⟩⟩ := unsafeCacheSync_ctx.mp hsync
    · exact h.setBlock (f := Block.pin) (fun _ => rfl) hpin
    · have h' : CopyAt Q b { s with header := s.header.push x } := h
      exact h'.setBlock (f := Block.pin) (fun _ => rfl) hpin

/-- A block that nobody holds can be acquired. -/
theorem exists_acquire (h : CopyAt (fun blk => blk.locked = false) b s) :
    ∃ t, unsafeCacheAcquire b s = .ok (((getCache b s.blocks).getD (s.readBlock b)).lock, t) := by
  have hfree := h.loadBlock (x := b) fun _ _ => rfl
  have hload := getCache_loadBlock_self b s
  exact ⟨_, unsafeCacheAcquire_eq_ok.mpr ⟨_, hload, hfree _ hload, rfl, rfl⟩⟩

end CopyAt

end KernelAarch64.Fs
