import KernelAarch64.Fs.Cache.Accounting

/-!
# Power cuts

The run is cut after any number of device writes and the machine is started again, perhaps several
times, each time running `init_bcache` on what the device holds (`Reboots`). `Sys.Safe` says that
whatever the cut, the recovered disk is the initial one overlaid with the events that happened
before the cut. It is kept by every action that stays out of the log area, as long as the log does
not overflow; nothing is assumed here about what callers change or sync.

The main results are `Sys.Safe.step`, which is the step lemma, and `Recoverable.reboots`, which says
that a recovery that is cut itself changes nothing about what the next one makes of the disk.
Together they carry the result about power cuts, which `Fs.Cache.Atomicity` states over runs.

The order is: what recovery does to a disk (`Recoverable`, from the general facts of `Lib.RedoLog`);
what the calls need of the cached blocks and of the header in memory (`Sys.Tidy`); and the events of
a run against the device writes they happen at (`Sys.Safe`). Only two kinds of actions write to the
device: a direct write, which is an event of its own (`Sys.Safe.direct`), and the commit of the last
operation (`Sys.Safe.endOp`), where the commit point of the log decides on which side of the cut the
event falls. Every other action leaves the device alone (`Sys.Safe.of_device`).
-/

namespace KernelAarch64.Fs

open KernelAarch64.Lib

/-! ## Recovery

`Recoverable sb d v` is the only thing that is asked of a disk in the middle of a run: whatever the
log area holds, after the next start the rest of the disk is `v`. It is the log of `Lib.RedoLog`
read at the places of `cache.c`. -/

/-- Outside the log area, recovery makes `v` of the disk `d`, whose log is one that can be
installed. -/
structure Recoverable (sb : SuperBlock) (d v : Disk) : Prop where
  sound : (redoLog sb).Sound (logArea sb) d
  view : ∀ b, ¬ logArea sb b → (redoLog sb).view d b = v b

/-- The disk after any number of starts of the machine, each cut after some device write. -/
def Reboots (sb : SuperBlock) : Disk → Disk → Prop :=
  Relation.ReflTransGen fun d d' => ∃ j, d' = (initBcache sb d).device.diskAt j

section Recovery

variable {sb : SuperBlock} {d d' v v' : Disk}

theorem Recoverable.congr (h : Recoverable sb d v) (hv : ∀ b, ¬ logArea sb b → v b = v' b) :
    Recoverable sb d v' :=
  ⟨h.sound, fun b hb => (h.view b hb).trans (hv b hb)⟩

/-- A disk with an empty log recovers to itself. -/
theorem Recoverable.of_empty (hhdr : logArea sb sb.logStart.toNat)
    (hread : (redoLog sb).readable (d sb.logStart.toNat))
    (hempty : (redoLog sb).homes (d sb.logStart.toNat) = []) : Recoverable sb d d :=
  ⟨.of_empty hhdr hread hempty, fun b _ => by rw [RedoLog.view_of_empty hempty]⟩

/-- The device writes of `init_bcache`. -/
theorem initBcache_device (hs : (redoLog sb).Sound (logArea sb) d) :
    ∃ h : LogHeader, (initBcache sb d).device =
      ⟨d, (redoLog sb).redo d ++ [(sb.logStart.toNat, h.clear.toBlock)]⟩ := by
  refine ⟨LogHeader.load ⟨0, fun _ => 0⟩ (d sb.logStart.toNat), ?_⟩
  have hboot : (redoLog sb).Sound (logArea sb) (Device.disk ⟨d, []⟩) := hs
  rw [initBcache, unsafeCrashRecover_eq sb hboot]
  rfl

/-- Recovery may be cut again and again: each start redoes the log from the beginning, and what it
has already written is what it writes again. -/
theorem Recoverable.reboots (h : Recoverable sb d v) (hd : Reboots sb d d') :
    Recoverable sb d' v := by
  induction hd with
  | refl => exact h
  | @tail d₁ d₂ _ hlast ih =>
    obtain ⟨j, rfl⟩ := hlast
    obtain ⟨g, hdev⟩ := initBcache_device ih.sound
    rw [hdev]
    obtain ⟨hsound, hview⟩ := ih.sound.recover_cut (readable_toBlock_clear sb g)
      (homes_toBlock_clear sb g) j
    exact ⟨hsound, fun b hb => (hview b hb).trans (ih.view b hb)⟩

/-- A recovery that runs to its end leaves what was to be recovered, and an empty log. -/
theorem Recoverable.initBcache (h : Recoverable sb d v) :
    (∀ b, ¬ logArea sb b → (initBcache sb d).device.disk b = v b) ∧
      (diskHeader ((initBcache sb d).device.disk sb.logStart.toNat)).numBlocks = 0 := by
  obtain ⟨g, hdev⟩ := initBcache_device h.sound
  rw [hdev]
  constructor
  · intro b hb
    rw [Device.disk, ← h.view b hb]
    exact h.sound.recover hb
  · rw [Device.disk, applyWrites_concat, Function.update_self]
    exact LogHeader.numBlocks_load_toBlock_clear _ g

/-- A start on a disk with an empty log leaves the disk as it is. -/
theorem initBcache_of_clear {g : LogHeader} (hd : d sb.logStart.toNat = g.clear.toBlock) :
    (initBcache sb d).device = ⟨d, [(sb.logStart.toNat, d sb.logStart.toNat)]⟩ := by
  have hload : ∀ h : LogHeader, (h.load (d sb.logStart.toNat)).numBlocks = 0 := by
    intro h
    rw [hd]
    exact LogHeader.numBlocks_load_toBlock_clear h g
  have hblock : ∀ h : LogHeader,
      (h.load (d sb.logStart.toNat)).clear.toBlock = d sb.logStart.toNat := by
    intro h
    rw [hd]
    exact LogHeader.toBlock_load_clear h g
  rw [initBcache, unsafeCrashRecover, readHeader_header, Device.disk, applyWrites_nil, hload,
    List.range_zero, List.foldl_nil, writeHeader, Cache.deviceWrite_device, readHeader_header,
    Device.disk, applyWrites_nil, hblock]
  rfl

/-- Once the log on the device is empty, no reboot changes the disk any more. -/
theorem Reboots.of_clear {g : LogHeader} (hd : d sb.logStart.toNat = g.clear.toBlock)
    (h : Reboots sb d d') : d' = d ∧ (initBcache sb d').device.disk = d := by
  have hsame : d' = d := by
    induction h with
    | refl => rfl
    | tail _ hlast ih =>
      obtain ⟨j, rfl⟩ := hlast
      subst ih
      rw [initBcache_of_clear hd, Device.diskAt]
      cases j with
      | zero => rfl
      | succ j => simp
  refine ⟨hsame, ?_⟩
  rw [hsame, initBcache_of_clear hd, Device.disk]
  simp

end Recovery

/-! ## The log and the cached blocks

The commit copies the content of a cached block to the log for every number in the header, so that a
header that named a block of the log area, or that did not fit, would spoil the log itself. -/

/-- The actions that leave the log area to the log: no block of it is synced or zeroed. Everything
else is as for `Legal`. -/
def Sys.OutsideLog (sb : SuperBlock) (s : Sys) : Action → Prop
  | .sync c b => s.Legal (.sync c b) ∧ ¬ logArea sb b
  | .zero b => ¬ logArea sb b
  | a => s.Legal a

instance (sb : SuperBlock) (s : Sys) (a : Action) : Decidable (s.OutsideLog sb a) := by
  induction a using Action.casesOn <;> dsimp only [Sys.OutsideLog] <;> infer_instance

/-- What stays out of the log area is in particular legal. -/
theorem Sys.OutsideLog.legal {sb : SuperBlock} {s : Sys} {a : Action} (h : s.OutsideLog sb a) :
    s.Legal a := by
  cases a with
  | sync c b => exact h.1
  | zero b => trivial
  | _ => exact h

/-- The actions of a call with bitmap block `bm` stay out of the log area. -/
theorem BitmapAction.outsideLog {sb : SuperBlock} {c bm : Nat} {z : Option Nat} {s : Sys}
    {a : Action} (ha : BitmapAction c bm z a) (hlegal : s.Legal a) (hbm : ¬ logArea sb bm)
    (hz : ∀ b ∈ z, ¬ logArea sb b) : s.OutsideLog sb a := by
  cases a with
  | acquire b => exact hlegal
  | change c b d => exact hlegal
  | sync c b =>
    obtain ⟨-, rfl⟩ := ha
    exact ⟨hlegal, hbm⟩
  | release b => exact hlegal
  | zero b => exact hz b ha
  | beginOp c => exact ha.elim
  | endOp c => exact ha.elim
  | alloc c => exact ha.elim
  | free c b => exact ha.elim

/-- The cache is in order and its log fits. The bound on the block numbers is what makes a number
survive the trip through the header. -/
structure Sys.Tidy (sb : SuperBlock) (s : Sys) : Prop where
  rep : s.cache.Rep
  fits : s.cache.Fits sb
  usize : ∀ blk ∈ s.cache.blocks, blk.blockNo < 2 ^ 64

namespace Sys.Tidy

variable {sb : SuperBlock} {s t : Sys}

/-- The cached blocks are the same, so their numbers are still of type `usize`. -/
theorem usize_of_map (h : s.Tidy sb) {l : List Block}
    (hl : l.map Block.blockNo = s.cache.blocks.map Block.blockNo) :
    ∀ blk ∈ l, blk.blockNo < 2 ^ 64 := by
  intro blk hblk
  have hmem : blk.blockNo ∈ s.cache.blocks.map Block.blockNo := hl ▸ List.mem_map_of_mem hblk
  obtain ⟨a, ha, hno⟩ := List.mem_map.mp hmem
  exact hno ▸ h.usize a ha

/-- An action that leaves the header alone and caches no new block. -/
theorem of_header (h : s.Tidy sb) (hrep : t.cache.Rep) (hheader : t.cache.header = s.cache.header)
    (hblocks : t.cache.blocks.map Block.blockNo = s.cache.blocks.map Block.blockNo) :
    t.Tidy sb := by
  refine ⟨hrep, ?_, h.usize_of_map hblocks⟩
  constructor <;> rw [hheader]
  · exact h.fits.capacity
  · exact h.fits.usize
  · exact h.fits.home

theorem acquire (h : s.Tidy sb) {b : Nat} (hb : b < 2 ^ 64)
    (hstep : s.step sb (.acquire b) = .ok t) : t.Tidy sb := by
  have hrep := Sys.rep_step h.rep hstep
  obtain ⟨blk, cache, hacq, rfl⟩ := step_acquire.mp hstep
  have hheader := unsafeCacheAcquire_header hacq
  refine ⟨hrep, ?_, ?_⟩
  · constructor <;> dsimp only <;> rw [hheader]
    · exact h.fits.capacity
    · exact h.fits.usize
    · exact h.fits.home
  · intro x hx
    obtain ⟨y, hy, rfl⟩ := mem_acquire hacq hx
    have hlt : y.blockNo < 2 ^ 64 := by
      rcases hy with hy | rfl
      · exact h.usize y hy
      · exact hb
    split <;> exact hlt

/-- A new block is logged. The header still fits, since this is what the rule of the run says of the
state after the step. -/
theorem sync (h : s.Tidy sb) {c b : Nat} (hb : ¬ logArea sb b)
    (hstep : s.step sb (.sync (some c) b) = .ok t)
    (hcap : t.cache.header.numBlocks ≤ logCapacity sb) : t.Tidy sb := by
  have hrep := Sys.rep_step h.rep hstep
  obtain ⟨ctx, ctx', cache, hc, hsync, rfl⟩ := step_sync.mp hstep
  have hpin : ∀ l, (setCache b Block.pin l).map Block.blockNo = l.map Block.blockNo :=
    map_blockNo_setCache (f := Block.pin) (fun _ => rfl) b
  obtain ⟨⟨blk, hblk⟩, ⟨-, -, -, rfl⟩ | ⟨-, -, -, rfl⟩⟩ := unsafeCacheSync_ctx.mp hsync
  · exact h.of_header hrep rfl (hpin _)
  · obtain ⟨hmem, rfl⟩ := getCache_eq_some hblk
    refine ⟨hrep, ⟨hcap, ?_, ?_⟩, h.usize_of_map (hpin _)⟩
    · intro x hx
      rw [Cache.setBlock_header, LogHeader.entries_push, List.mem_append, List.mem_singleton] at hx
      rcases hx with hx | rfl
      · exact h.fits.usize x hx
      · exact h.usize blk hmem
    · intro x hx
      rw [Cache.setBlock_header, LogHeader.entries_push, List.mem_append, List.mem_singleton] at hx
      rcases hx with hx | rfl
      · exact h.fits.home x hx
      · exact hb

theorem endOp (h : s.Tidy sb) {c : Nat} (hstep : s.step sb (.endOp c) = .ok t) : t.Tidy sb := by
  have hrep := Sys.rep_step h.rep hstep
  obtain ⟨ctx, cache, hc, hend, rfl⟩ := step_endOp.mp hstep
  rcases cacheEndOp_eq_ok.mp hend with ⟨hlast, u, hu, rfl⟩ | ⟨hmore, rfl⟩
  · obtain ⟨g, dev, heq⟩ := commit_frame sb h.rep
    rw [heq] at hu
    cases hu
    exact ⟨hrep, ⟨Nat.zero_le _, by simp, by simp⟩, h.usize_of_map (map_blockNo_unpinAll _ _)⟩
  · exact h.of_header hrep rfl rfl

/-- Every action that stays out of the log area keeps the cache in order. One case for each action.
-/
theorem step (h : s.Tidy sb) {a : Action} (ha : a.Simple) (hok : s.OutsideLog sb a)
    (hstep : s.step sb a = .ok t) (hcap : t.cache.header.numBlocks ≤ logCapacity sb) :
    t.Tidy sb := by
  have hrep := Sys.rep_step h.rep hstep
  cases a with
  | acquire b => exact h.acquire hok hstep
  | change c b d =>
    obtain ⟨-, rfl⟩ := step_change.mp hstep
    exact h.of_header hrep rfl (map_blockNo_setCache (f := Block.setData d) (fun _ => rfl) _ _)
  | sync c b =>
    cases c with
    | none =>
      obtain ⟨-, rfl⟩ := step_sync_null.mp hstep
      exact h.of_header hrep rfl rfl
    | some c => exact h.sync hok.2 hstep hcap
  | release b =>
    obtain ⟨-, rfl⟩ := step_release.mp hstep
    exact h.of_header hrep rfl (map_blockNo_setCache (f := Block.unlock) (fun _ => rfl) _ _)
  | beginOp c =>
    obtain ⟨-, rfl⟩ := step_beginOp.mp hstep
    exact h.of_header hrep rfl rfl
  | endOp c => exact h.endOp hstep
  | alloc c => exact ha.elim
  | free c b => exact ha.elim
  | zero b =>
    cases step_zero.mp hstep
    exact h.of_header hrep rfl rfl

/-- The content at power on is history: no action changes it, and the device is what its writes make
of it. -/
theorem initial_eq (h : s.Tidy sb) (hacc : s.counters.Accounting sb.numLogBlocks.toNat)
    {a : Action} (ha : a.Simple) (hstep : s.step sb a = .ok t) :
    t.cache.device.initial = s.cache.device.initial := by
  cases a with
  | acquire b =>
    obtain ⟨blk, cache, hacq, rfl⟩ := step_acquire.mp hstep
    obtain ⟨a, -, -, -, rfl⟩ := unsafeCacheAcquire_eq_ok.mp hacq
    simp
  | change c b d =>
    obtain ⟨-, rfl⟩ := step_change.mp hstep
    rfl
  | sync c b =>
    cases c with
    | none =>
      obtain ⟨-, rfl⟩ := step_sync_null.mp hstep
      rfl
    | some c =>
      obtain ⟨ctx, ctx', cache, hc, hsync, rfl⟩ := step_sync.mp hstep
      obtain ⟨-, ⟨-, -, -, rfl⟩ | ⟨-, -, -, rfl⟩⟩ := unsafeCacheSync_ctx.mp hsync <;> rfl
  | release b =>
    obtain ⟨-, rfl⟩ := step_release.mp hstep
    rfl
  | beginOp c =>
    obtain ⟨-, rfl⟩ := step_beginOp.mp hstep
    rfl
  | endOp c =>
    have hlog := log_pos_of_endOp hacc hstep
    obtain ⟨ctx, -, ⟨-, rfl⟩ | ⟨-, rfl⟩⟩ := step_endOp_cases h.rep h.fits hlog hstep <;> rfl
  | alloc c => exact ha.elim
  | free c b => exact ha.elim
  | zero b =>
    cases step_zero.mp hstep
    rfl

end Sys.Tidy

/-- The cache is empty after `init_bcache`, and so is the header. -/
theorem Sys.init_tidy (sb : SuperBlock) (d : Disk) : (Sys.init sb d).Tidy sb := by
  obtain ⟨h, dev, heq⟩ := initBcache_eq sb d
  refine ⟨Sys.init_rep sb d, ⟨?_, ?_, ?_⟩, ?_⟩ <;> simp [Sys.init, heq]

/-! ## The invariant

An event is something that callers may rely on after a cut: a direct write, or a commit with all the
blocks of its operations. Each has a position, the number of the device write it happens at, so that
the events before a cut are a prefix of all events. -/

/-- The disk with some events on top. -/
def overlay (d : Disk) (es : List Event) : Disk := applyWrites d (es.flatMap Event.writes)

theorem overlay_append (d : Disk) (es fs : List Event) :
    overlay d (es ++ fs) = overlay (overlay d es) fs := by
  rw [overlay, List.flatMap_append, applyWrites_append]
  rfl

/-- The events that happened among the first `k` device writes. -/
def Sys.eventsAt (s : Sys) (k : Nat) : List Event := s.ghost.events.filter (·.pos < k)

/-- Every cut of the run so far can be recovered from, to the content that the events before the cut
say. The device writes and the events run in parallel, by the position of each event. -/
structure Sys.Safe (sb : SuperBlock) (s : Sys) : Prop extends s.Tidy sb where
  hdr : logArea sb sb.logStart.toNat
  /-- Between the calls the log on the device is empty. -/
  readable : (redoLog sb).readable (s.cache.device.disk sb.logStart.toNat)
  empty : (redoLog sb).homes (s.cache.device.disk sb.logStart.toNat) = []
  past : ∀ e ∈ s.ghost.events, e.pos < s.nextPos
  sorted : s.ghost.events.Pairwise (·.pos < ·.pos)
  cut : ∀ k, Recoverable sb (s.cache.device.diskAt k)
    (overlay s.cache.device.initial (s.eventsAt k))

/-- The events before a cut are the first ones, because their positions on the device increase. -/
theorem filter_pos_isPrefix {es : List Event} (h : es.Pairwise (·.pos < ·.pos)) (k : Nat) :
    es.filter (·.pos < k) <+: es := by
  induction es with
  | nil => exact List.nil_prefix
  | cons e es ih =>
    rw [List.pairwise_cons] at h
    by_cases he : e.pos < k
    · simpa [he] using ih h.2
    · have hnone : es.filter (·.pos < k) = [] := by
        rw [List.filter_eq_nil_iff]
        intro f hf
        have := h.1 f hf
        simp only [decide_eq_true_eq]
        omega
      simp [he, hnone]

namespace Sys.Safe

variable {sb : SuperBlock} {s t : Sys}

theorem eventsAt_nextPos (h : s.Safe sb) {k : Nat} (hk : s.nextPos ≤ k) :
    s.eventsAt k = s.ghost.events := by
  apply List.filter_eq_self.mpr
  intro e he
  have := h.past e he
  simp only [decide_eq_true_eq]
  omega

/-- Between the calls, what is on the device outside the log area is what it would recover to. -/
theorem disk_eq (h : s.Safe sb) {b : Nat} (hb : ¬ logArea sb b) :
    s.cache.device.disk b = overlay s.cache.device.initial s.ghost.events b := by
  have hcut := h.cut s.nextPos
  rw [h.eventsAt_nextPos (Nat.le_refl _)] at hcut
  have hdisk : s.cache.device.diskAt s.nextPos = s.cache.device.disk := by
    rw [Device.diskAt, Sys.nextPos, List.take_length, Device.disk]
  rw [hdisk] at hcut
  rw [← hcut.view b hb, RedoLog.view_of_empty h.empty]

/-- An action that writes nothing keeps the recovery of every cut. -/
theorem of_device (h : s.Safe sb) (htidy : t.Tidy sb)
    (hdev : t.cache.device = s.cache.device) (hevents : t.ghost.events = s.ghost.events) :
    t.Safe sb := by
  refine ⟨htidy, h.hdr, ?_, ?_, ?_, ?_, ?_⟩
  · rw [hdev]
    exact h.readable
  · rw [hdev]
    exact h.empty
  · rw [hevents, Sys.nextPos, hdev]
    exact h.past
  · rw [hevents]
    exact h.sorted
  · intro k
    rw [Sys.eventsAt, hevents, hdev]
    exact h.cut k

/-- Device writes `ws` that make the event `e` happen at write number `p` of them. A cut before that
shows the old content, a cut after it the new one. -/
theorem cut_append (h : s.Safe sb) {ws : List (Nat × BlockData)} {e : Event} {p : Nat}
    (hdev : t.cache.device = s.cache.device.append ws)
    (hevents : t.ghost.events = s.ghost.events ++ [e]) (hpos : e.pos = s.nextPos + p)
    (hcut : ∀ j, Recoverable sb (applyWrites s.cache.device.disk (ws.take j))
      (if j ≤ p then s.cache.device.disk else applyWrites s.cache.device.disk e.writes))
    (k : Nat) :
    Recoverable sb (t.cache.device.diskAt k)
      (overlay t.cache.device.initial (t.eventsAt k)) := by
  rw [Sys.eventsAt, hevents, hdev, Device.diskAt, Device.initial_append, Device.writes_append,
    List.take_append, applyWrites_append]
  by_cases hk : k ≤ s.nextPos
  · -- The cut falls before these writes.
    have hzero : k - s.cache.device.writes.length = 0 := Nat.sub_eq_zero_of_le hk
    have hlast : ¬ e.pos < k := by omega
    have hold : (s.ghost.events ++ [e]).filter (·.pos < k) = s.eventsAt k := by
      simp [List.filter_append, hlast, Sys.eventsAt]
    rw [hzero, List.take_zero, applyWrites_nil, hold]
    exact h.cut k
  · have hk : s.cache.device.writes.length < k := Nat.lt_of_not_le hk
    have hall : (s.ghost.events ++ [e]).filter (·.pos < k) =
        s.ghost.events ++ [e].filter (·.pos < k) := by
      rw [List.filter_append, ← Sys.eventsAt, h.eventsAt_nextPos (Nat.le_of_lt hk)]
    have hpos' : e.pos = s.cache.device.writes.length + p := hpos
    rw [List.take_of_length_le (Nat.le_of_lt hk), hall, overlay_append]
    refine (hcut (k - s.cache.device.writes.length)).congr fun b hb => ?_
    have hdisk := h.disk_eq hb
    split
    · have hlast : ¬ e.pos < k := by omega
      simpa [hlast, overlay] using hdisk
    · have hlast : e.pos < k := by omega
      simp only [hlast, List.filter_cons, List.filter_nil, decide_true, if_true, overlay,
        List.flatMap_cons, List.flatMap_nil, List.append_nil]
      exact applyWrites_congr hdisk

theorem sorted_append (h : s.Safe sb) {e : Event} (hpos : s.nextPos ≤ e.pos) :
    (s.ghost.events ++ [e]).Pairwise (·.pos < ·.pos) := by
  rw [List.pairwise_append]
  refine ⟨h.sorted, List.pairwise_singleton _ _, ?_⟩
  intro e' he' f hf
  cases List.mem_singleton.mp hf
  exact Nat.lt_of_lt_of_le (h.past e' he') hpos

/-- A device write that does not go through the log. Outside the log area it is an event of its own,
made by the write itself. -/
theorem direct (h : s.Safe sb) {b : Nat} {d : BlockData} (hb : ¬ logArea sb b)
    (htidy : t.Tidy sb) (hdev : t.cache.device = s.cache.device.append [(b, d)])
    (hevents : t.ghost.events = s.ghost.events ++ [.direct s.nextPos b d]) : t.Safe sb := by
  have hne : sb.logStart.toNat ≠ b := by
    rintro rfl
    exact hb h.hdr
  have hhdr : applyWrites s.cache.device.disk [(b, d)] sb.logStart.toNat =
      s.cache.device.disk sb.logStart.toNat := by
    rw [applyWrites_cons, applyWrites_nil, Function.update_of_ne hne]
  refine ⟨htidy, h.hdr, ?_, ?_, ?_, ?_, ?_⟩
  · rw [hdev, Device.disk_append, hhdr]
    exact h.readable
  · rw [hdev, Device.disk_append, hhdr]
    exact h.empty
  · have hlen : t.nextPos = s.nextPos + 1 := by
      rw [Sys.nextPos, hdev, Device.writes_append, List.length_append]
      rfl
    intro e he
    rw [hevents, List.mem_append, List.mem_singleton] at he
    rcases he with he | rfl
    · have := h.past e he
      omega
    · simp [Event.pos, hlen]
  · rw [hevents]
    exact h.sorted_append (Nat.le_refl _)
  · refine h.cut_append (p := 0) hdev hevents rfl fun j => ?_
    cases j with
    | zero =>
      simp only [List.take_zero, applyWrites_nil, Nat.le_refl, if_true]
      exact .of_empty h.hdr h.readable h.empty
    | succ j =>
      simp only [List.take_succ_cons, List.take_nil, Event.writes]
      rw [if_neg (Nat.not_succ_le_zero j)]
      refine .of_empty h.hdr ?_ ?_
      · rw [hhdr]
        exact h.readable
      · rw [hhdr]
        exact h.empty

/-- `cache_end_op`, with the commit of the last operation. The event happens at the write of the
header; the copies before it and the writes home after it are those of a redo log. -/
theorem endOp (h : s.Safe sb) {c : Nat} (hstep : s.step sb (.endOp c) = .ok t) : t.Safe sb := by
  have htidy := h.toTidy.endOp hstep
  have hlog : 0 < sb.numLogBlocks.toNat := by
    have := h.hdr.2
    omega
  obtain ⟨ctx, hc, ⟨hlast, rfl⟩ | ⟨hmore, rfl⟩⟩ := step_endOp_cases h.rep h.fits hlog hstep
  · have hread : (redoLog sb).readable (clearedHeader s.cache) := readable_toBlock_clear sb _
    have hempty : (redoLog sb).homes (clearedHeader s.cache) = [] := homes_toBlock_clear sb _
    refine ⟨htidy, h.hdr, ?_, ?_, ?_, ?_, ?_⟩
    · rw [Cache.hdr_committed]
      exact hread
    · rw [Cache.hdr_committed]
      exact hempty
    · intro e he
      simp only [Ghost.commit, List.mem_append, List.mem_singleton] at he
      simp only [Sys.nextPos, Cache.committed, Device.writes_append, List.length_append,
        RedoLog.commitWrites, RedoLog.length_copies, LogHeader.length_entries, List.length_cons]
      rcases he with he | rfl
      · have := h.past e he
        simp only [Sys.nextPos] at this
        omega
      · simp only [Event.pos, Sys.nextPos]
        omega
    · exact h.sorted_append (e := .group _ _ _) (Nat.le_add_right _ _)
    · refine h.cut_append (e := .group (s.nextPos + s.cache.header.numBlocks) _ _) rfl rfl rfl
        fun j => ?_
      obtain ⟨hsound, hview⟩ := (h.fits.room hlog).commit_cut h.readable h.empty s.cache.dataOf
        (readable_toBlock sb s.cache.header h.fits.le_logMaxSize)
        (homes_toBlock sb s.cache.header h.fits.le_logMaxSize h.fits.usize) hread hempty j
      refine ⟨hsound, fun b hb => ?_⟩
      rw [hview b hb, LogHeader.length_entries]
      split <;> rfl
  · exact h.of_device htidy rfl rfl

/-- Every action that stays out of the log area keeps the recovery of every cut. Most of them write
nothing to the device. -/
theorem step (h : s.Safe sb) {a : Action} (ha : a.Simple) (hok : s.OutsideLog sb a)
    (hstep : s.step sb a = .ok t) (hcap : t.cache.header.numBlocks ≤ logCapacity sb) :
    t.Safe sb := by
  have htidy := h.toTidy.step ha hok hstep hcap
  cases a with
  | acquire b =>
    obtain ⟨blk, cache, hacq, rfl⟩ := step_acquire.mp hstep
    obtain ⟨a, -, -, -, rfl⟩ := unsafeCacheAcquire_eq_ok.mp hacq
    exact h.of_device htidy (by simp) rfl
  | change c b d =>
    obtain ⟨-, rfl⟩ := step_change.mp hstep
    exact h.of_device htidy rfl rfl
  | sync c b =>
    cases c with
    | none =>
      obtain ⟨-, rfl⟩ := step_sync_null.mp hstep
      exact h.direct hok.2 htidy rfl rfl
    | some c =>
      obtain ⟨ctx, ctx', cache, hc, hsync, rfl⟩ := step_sync.mp hstep
      obtain ⟨-, ⟨-, -, -, rfl⟩ | ⟨-, -, -, rfl⟩⟩ := unsafeCacheSync_ctx.mp hsync
      · exact h.of_device htidy rfl rfl
      · exact h.of_device htidy rfl rfl
  | release b =>
    obtain ⟨-, rfl⟩ := step_release.mp hstep
    exact h.of_device htidy rfl rfl
  | beginOp c =>
    obtain ⟨-, rfl⟩ := step_beginOp.mp hstep
    exact h.of_device htidy rfl rfl
  | endOp c => exact h.endOp hstep
  | alloc c => exact ha.elim
  | free c b => exact ha.elim
  | zero b =>
    cases step_zero.mp hstep
    exact h.direct hok htidy rfl rfl

end Sys.Safe

/-- Recovery ends with the write of an empty header, whatever it found. -/
theorem unsafeCrashRecover_header (sb : SuperBlock) (s : Cache) : ∃ h : LogHeader,
    (unsafeCrashRecover sb s).device.disk sb.logStart.toNat = h.clear.toBlock := by
  refine ⟨((List.range (readHeader sb s).header.numBlocks).foldl (installCopy sb)
    (readHeader sb s)).header, ?_⟩
  rw [unsafeCrashRecover, writeHeader, Cache.deviceWrite_device, Device.disk_write,
    Function.update_self]

theorem Sys.init_header (sb : SuperBlock) (d : Disk) : ∃ h : LogHeader,
    (Sys.init sb d).cache.device.disk sb.logStart.toNat = h.clear.toBlock :=
  unsafeCrashRecover_header sb _

/-- At power on nothing has happened yet: any cut of the writes of `init_bcache` itself is one more
reboot of the initial disk. -/
theorem Sys.init_safe (sb : SuperBlock) (d : Disk) (hlog : 0 < sb.numLogBlocks.toNat) :
    (Sys.init sb d).Safe sb := by
  obtain ⟨g, hg⟩ := Sys.init_header sb d
  have hhdr := hdr_mem_logArea hlog
  have hread : (redoLog sb).readable ((Sys.init sb d).cache.device.disk sb.logStart.toNat) := by
    rw [hg]
    exact readable_toBlock_clear sb g
  have hempty : (redoLog sb).homes ((Sys.init sb d).cache.device.disk sb.logStart.toNat) = [] := by
    rw [hg]
    exact homes_toBlock_clear sb g
  refine ⟨Sys.init_tidy sb d, hhdr, hread, hempty, ?_, List.Pairwise.nil, ?_⟩
  · intro e he
    exact absurd he List.not_mem_nil
  · intro k
    have hdisk : (Sys.init sb d).cache.device.diskAt k = (Sys.init sb d).cache.device.disk := by
      simp [Sys.init, Device.diskAt, Device.disk]
    rw [hdisk]
    exact .of_empty hhdr hread hempty

/-! ## A disk without a log -/

/-- A write to the device that does not go through the log: a `sync` with context `NULL`, or the
zero block of `cache_alloc`. -/
def Action.IsDirect : Action → Prop
  | .sync none _ => True
  | .zero _ => True
  | _ => False

instance (a : Action) : Decidable a.IsDirect := by
  induction a using Action.casesOn
  case sync c b =>
    induction c using Option.casesOn <;> dsimp only [Action.IsDirect] <;> infer_instance
  all_goals dsimp only [Action.IsDirect]; infer_instance

/-- Without log blocks no operation begins, and nothing is ever written. The test of
`cache_begin_op` fails for the first operation already. -/
theorem Runs.untouched {sb : SuperBlock} {s t : Sys} {ok : Sys → Action → Prop}
    {post : Sys → Prop} (h : Runs sb ok post s t)
    (hok : ∀ u a, ok u a → u.Legal a ∧ ¬ a.IsDirect) (hlog : sb.numLogBlocks.toNat = 0)
    (hacc : s.counters.Accounting sb.numLogBlocks.toNat) :
    t.cache.device = s.cache.device ∧ t.ghost.hist = s.ghost.hist ∧
      t.ghost.events = s.ghost.events := by
  suffices hinv : t.counters.Accounting sb.numLogBlocks.toNat ∧
      t.cache.device = s.cache.device ∧ t.ghost.hist = s.ghost.hist ∧
      t.ghost.events = s.ghost.events from hinv.2
  refine h.invariant (I := fun u => u.counters.Accounting sb.numLogBlocks.toNat ∧
    u.cache.device = s.cache.device ∧ u.ghost.hist = s.ghost.hist ∧
    u.ghost.events = s.ghost.events) ⟨hacc, rfl, rfl, rfl⟩ ?_
  rintro u v a ⟨hu, hdev, hhist, hevents⟩ ha hstep -
  obtain ⟨hlegal, hdirect⟩ := hok u a ha
  refine ⟨(Sys.step_counters hlegal hstep).accounting hu, ?_⟩
  have hopen : ∀ c, ¬ u.IsOpen c := by
    intro c hc
    have hlen : 0 < u.ops.length := by
      obtain ⟨p, hp, -⟩ := List.mem_map.mp hc
      exact List.length_pos_of_mem hp
    have hout : u.counters.outstanding = u.ops.length := hu.outstanding
    have hres := hu.reserved
    unfold opMaxNumBlocks at hres
    omega
  cases a with
  | acquire b =>
    obtain ⟨blk, cache, hacq, rfl⟩ := step_acquire.mp hstep
    obtain ⟨a, -, -, -, rfl⟩ := unsafeCacheAcquire_eq_ok.mp hacq
    exact ⟨by simpa using hdev, hhist, hevents⟩
  | change c b d => exact absurd hlegal.1 (hopen c)
  | sync c b =>
    cases c with
    | none => exact absurd trivial hdirect
    | some c => exact absurd hlegal.1 (hopen c)
  | release b =>
    obtain ⟨-, rfl⟩ := step_release.mp hstep
    exact ⟨hdev, hhist, hevents⟩
  | beginOp c =>
    obtain ⟨hroom, -⟩ := step_beginOp.mp hstep
    unfold opMaxNumBlocks at hroom
    omega
  | endOp c => exact absurd hlegal (hopen c)
  | alloc c => exact absurd hlegal (hopen c)
  | free c b => exact absurd hlegal.1 (hopen c)
  | zero b => exact absurd trivial hdirect

/-- A run that wrote nothing, cut and recovered. -/
theorem Reboots.of_untouched {sb : SuperBlock} {d d' : Disk} {s : Sys} {k : Nat}
    (hdev : s.cache.device = (Sys.init sb d).cache.device)
    (h : Reboots sb (s.cache.device.diskAt k) d') :
    (initBcache sb d').device.disk = (Sys.init sb d).cache.device.disk := by
  obtain ⟨g, hg⟩ := Sys.init_header sb d
  have hdisk : s.cache.device.diskAt k = (Sys.init sb d).cache.device.disk := by
    rw [hdev]
    simp [Sys.init, Device.diskAt, Device.disk]
  rw [hdisk] at h
  exact (Reboots.of_clear hg h).2

end KernelAarch64.Fs
