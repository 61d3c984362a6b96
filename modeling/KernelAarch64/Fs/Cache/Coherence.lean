import KernelAarch64.Fs.Cache.Crash

/-!
# What the cache holds

`Sys.synced` is what a reader of the block cache should see: the initial disk with every `sync` so
far on top. `Sys.CohAt` says for one block that the cached copy has this content, and that the
device has it unless the block waits in the log; changes that were not synced yet are exempt. The
invariant is kept by evictions because a block leaves the cache only when it is neither held nor
logged.

The main result is `acquire_returns_synced`. Its invariant is `Sys.Coherent`, which adds to
`Sys.CohAt` for every block outside the log area that the log fits (`Sys.Tidy`), that the counters
are in order, and that unsynced changes are in blocks somebody holds (`Sys.DirtyHeld`), so that no
eviction can lose them. The step lemma is `Sys.Coherent.step`; the lemma for one block,
`Sys.CohAt.step`, is also used for runs with the calls on the bitmap.
-/

namespace KernelAarch64.Fs

open KernelAarch64.Lib

/-- The content of every block as of its last `sync`. -/
def Sys.synced (s : Sys) : Disk :=
  applyWrites s.cache.device.initial (s.ghost.hist.map SyncRec.write)

/-- Block `b` is up to date in the cache and, unless it is logged, on the device. What is up to date
is the content of its last `sync`, as long as it has no unsynced change. -/
structure Sys.CohAt (s : Sys) (b : Nat) : Prop where
  disk : b ∉ s.cache.header.entries → s.ghost.dirty b = none →
    s.cache.device.disk b = s.synced b
  cached : ∀ blk, getCache b s.cache.blocks = some blk → s.ghost.dirty b = none →
    blk.data = s.synced b

section Synced

variable {s t : Sys} {b x : Nat}

/-- Only a `sync` changes what readers should see. -/
theorem Sys.synced_eq (hinit : t.cache.device.initial = s.cache.device.initial)
    (hhist : t.ghost.hist = s.ghost.hist) : t.synced = s.synced := by
  rw [synced, synced, hinit, hhist]

/-- A `sync` is what is seen of its block. -/
theorem Sys.synced_sync {c : Option Nat} {d : BlockData}
    (hinit : t.cache.device.initial = s.cache.device.initial)
    (hhist : t.ghost.hist = (s.ghost.sync c x d).hist) :
    t.synced = Function.update s.synced x d := by
  rw [synced, hinit, hhist, Ghost.sync, List.map_append, List.map_cons, List.map_nil]
  exact applyWrites_concat _ _ x d

end Synced

namespace Sys.CohAt

variable {sb : SuperBlock} {s t : Sys} {b : Nat}

/-- The parts of the state the invariant is about: the header, the unsynced change, the device and
the copy in the cache of this block. -/
theorem congr (h : s.CohAt b) (hentries : b ∈ s.cache.header.entries → b ∈ t.cache.header.entries)
    (hdirty : t.ghost.dirty b = s.ghost.dirty b)
    (hdisk : t.cache.device.disk b = s.cache.device.disk b) (hsynced : t.synced b = s.synced b)
    (hcache : ∀ blk, getCache b t.cache.blocks = some blk →
      ∃ a, getCache b s.cache.blocks = some a ∧ blk.data = a.data) : t.CohAt b := by
  constructor
  · intro hb hclean
    rw [hdisk, hsynced]
    exact h.disk (fun hmem => hb (hentries hmem)) (hdirty ▸ hclean)
  · intro blk hblk hclean
    obtain ⟨a, ha, hdata⟩ := hcache blk hblk
    rw [hdata, hsynced]
    exact h.cached a ha (hdirty ▸ hclean)

/-- The copy has the data that it had in `s`. -/
theorem same_copy : CopyAt (fun blk => ∃ a, getCache b s.cache.blocks = some a ∧
    blk.data = a.data) b s.cache :=
  fun blk hblk => ⟨blk, hblk, rfl⟩

/-- The copy that is read in is as the device, and a block that is evicted was not in the log, so
the device is up to date. -/
theorem acquire (h : s.CohAt b) (hrep : s.cache.Rep) {x : Nat}
    (hstep : s.step sb (.acquire x) = .ok t) : t.CohAt b := by
  obtain ⟨blk, cache, hacq, ht⟩ := step_acquire.mp hstep
  have hcached : CopyAt (fun y => s.ghost.dirty b = none → y.data = s.synced b) b cache := by
    refine CopyAt.acquire h.cached hrep ?_ (fun _ _ hy => hy) hacq
    -- A block that is read in is not logged, so the device is up to date.
    intro _ hnone hclean
    refine h.disk (fun hmem => ?_) hclean
    obtain ⟨z, hz⟩ := hrep.getCache_entries hmem
    rw [hnone] at hz
    cases hz
  obtain ⟨a, -, -, -, rfl⟩ := unsafeCacheAcquire_eq_ok.mp hacq
  have hsynced : t.synced = s.synced := Sys.synced_eq (by simp [ht]) (by rw [ht])
  subst ht
  constructor
  · intro hb hclean
    rw [hsynced]
    simp only [evict_header, Cache.setBlock_header, loadBlock_header] at hb hclean
    simpa using h.disk hb hclean
  · rw [hsynced]
    exact hcached

theorem change (h : s.CohAt b) {c x : Nat} {d : BlockData}
    (hstep : s.step sb (.change c x d) = .ok t) : t.CohAt b := by
  obtain ⟨-, rfl⟩ := step_change.mp hstep
  by_cases hx : x = b
  · subst hx
    constructor <;> intros <;> simp_all [Ghost.change]
  · refine h.congr id ?_ rfl rfl ?_
    · simp [Ghost.change, Function.update_of_ne (Ne.symm hx)]
    · exact same_copy.setBlock (f := Block.setData d) (fun _ => rfl) (fun h => absurd h hx)

/-- A `sync` brings its own block up to date, whatever came before: its content becomes the one that
counts. -/
theorem sync {c x : Nat} (h : b ≠ x → s.CohAt b)
    (hstep : s.step sb (.sync (some c) x) = .ok t) : t.CohAt b := by
  obtain ⟨ctx, ctx', cache, -, hsync, ht⟩ := step_sync.mp hstep
  -- Whether the block is new in the log or not, it is logged afterwards and pinned.
  obtain ⟨⟨blk, hblk⟩, hcases⟩ := unsafeCacheSync_ctx.mp hsync
  have hcache : cache.device = s.cache.device ∧ x ∈ cache.header.entries ∧
      ∀ y ∈ s.cache.header.entries, y ∈ cache.header.entries := by
    rcases hcases with ⟨hmem, -, -, rfl⟩ | ⟨-, -, -, rfl⟩
    · exact ⟨rfl, hmem, fun _ hy => hy⟩
    · exact ⟨rfl, by simp, fun y hy => by simp [hy]⟩
  obtain ⟨hdev, hmem, hsub⟩ := hcache
  have hcopy := (same_copy (b := b)).sync (fun _ _ hy => hy) hsync
  have hsynced : t.synced = Function.update s.synced x (s.cache.dataOf x) :=
    Sys.synced_sync (c := some c) (by rw [ht, hdev]) (by rw [ht])
  subst ht
  by_cases hx : b = x
  · subst hx
    constructor
    · exact fun hb => absurd hmem hb
    · intro y hy _
      obtain ⟨a, ha, hdata⟩ := hcopy y hy
      rw [hsynced, Function.update_self, hdata, Cache.dataOf_of_getCache ha]
  · refine (h hx).congr (hsub b) ?_ (by rw [hdev]) ?_ hcopy
    · simp [Ghost.sync, Function.update_of_ne hx]
    · rw [hsynced, Function.update_of_ne hx]

theorem syncNull (h : s.CohAt b) {x : Nat} (hstep : s.step sb (.sync none x) = .ok t) :
    t.CohAt b := by
  obtain ⟨⟨blk, hblk⟩, ht⟩ := step_sync_null.mp hstep
  have hsynced : t.synced = Function.update s.synced x (s.cache.dataOf x) :=
    Sys.synced_sync (c := none) (by rw [ht]; rfl) (by rw [ht]; rfl)
  subst ht
  by_cases hx : b = x
  · subst hx
    constructor
    · intro _ _
      rw [hsynced, Function.update_self]
      simp
    · intro y hy _
      rw [hsynced, Function.update_self, Cache.dataOf_of_getCache (s := s.cache) hy]
  · refine h.congr id ?_ ?_ ?_ fun y hy => ⟨y, hy, rfl⟩
    · simp [Ghost.sync, Ghost.direct, Function.update_of_ne hx]
    · simp [Function.update_of_ne hx]
    · rw [hsynced, Function.update_of_ne hx]

/-- A commit installs the logged blocks, which are cached. The copies that it writes are those that
the cache holds, so that device and cache agree after it. -/
theorem endOp (h : s.CohAt b) (htidy : s.Tidy sb) (hlog : 0 < sb.numLogBlocks.toNat)
    (hb : ¬ logArea sb b) {c : Nat} (hstep : s.step sb (.endOp c) = .ok t) : t.CohAt b := by
  obtain ⟨ctx, -, ⟨-, ht⟩ | ⟨-, rfl⟩⟩ := step_endOp_cases htidy.rep htidy.fits hlog hstep
  · have hsynced : t.synced = s.synced := Sys.synced_eq (by rw [ht]; rfl) (by rw [ht]; rfl)
    subst ht
    constructor
    · intro _ hclean
      rw [hsynced, htidy.fits.disk_committed hlog hb]
      split
      · next hmem =>
        obtain ⟨blk, hblk⟩ := htidy.rep.getCache_entries hmem
        rw [Cache.dataOf_of_getCache hblk]
        exact h.cached blk hblk hclean
      · next hmem => exact h.disk hmem hclean
    · rw [hsynced]
      exact CopyAt.unpinAll h.cached (fun _ hy => hy) rfl
  · exact h.congr id rfl rfl rfl fun blk hblk => ⟨blk, hblk, rfl⟩

/-- Every action keeps a block up to date, unless it writes zeros over it. One case for each action;
a commit writes the logged blocks home. -/
theorem step (h : s.CohAt b) (htidy : s.Tidy sb)
    (hacc : s.counters.Accounting sb.numLogBlocks.toNat) (hb : ¬ logArea sb b) {a : Action}
    (ha : a.Simple) (hzero : a ≠ .zero b) (hstep : s.step sb a = .ok t) : t.CohAt b := by
  cases a with
  | acquire x => exact h.acquire htidy.rep hstep
  | change c x d => exact h.change hstep
  | sync c x =>
    cases c with
    | none => exact h.syncNull hstep
    | some c => exact CohAt.sync (fun _ => h) hstep
  | release x =>
    obtain ⟨-, rfl⟩ := step_release.mp hstep
    refine h.congr id rfl rfl rfl ?_
    exact same_copy.setBlock (f := Block.unlock) (fun _ => rfl) (fun _ _ hy => hy)
  | beginOp c =>
    obtain ⟨-, rfl⟩ := step_beginOp.mp hstep
    exact h.congr id rfl rfl rfl fun blk hblk => ⟨blk, hblk, rfl⟩
  | endOp c => exact h.endOp htidy (log_pos_of_endOp hacc hstep) hb hstep
  | alloc c => exact ha.elim
  | free c x => exact ha.elim
  | zero x =>
    cases step_zero.mp hstep
    have hx : b ≠ x := by
      rintro rfl
      exact hzero rfl
    refine h.congr id rfl ?_ rfl fun blk hblk => ⟨blk, hblk, rfl⟩
    simp [Function.update_of_ne hx]

end Sys.CohAt

/-! ## Unsynced changes

What makes a change durable is the discipline of its caller: sync before release, and everything
synced before the operation ends. Both are rules about the step that is taken, so that they can be
checked along a run. -/

/-- The end of an operation releases no block, and changes none, so that a block with unsynced
changes is still held. -/
theorem Sys.DirtyHeld.endOp {sb : SuperBlock} {s t : Sys} {c : Nat} (h : s.DirtyHeld)
    (hrep : s.cache.Rep) (hstep : s.step sb (.endOp c) = .ok t) : t.DirtyHeld := by
  obtain ⟨ctx, cache, -, hend, rfl⟩ := step_endOp.mp hstep
  have hdirty : ∀ g : Ghost, g = s.ghost ∨ (∃ p ws, g = s.ghost.commit p ws) →
      g.dirty = s.ghost.dirty := by
    rintro g (rfl | ⟨p, ws, rfl⟩) <;> rfl
  intro x hx
  rw [hdirty _ (by split <;> simp)] at hx
  obtain ⟨a, ha, hacq⟩ := Sys.held_iff.mp (h x hx)
  rcases cacheEndOp_eq_ok.mp hend with ⟨-, u, hu, rfl⟩ | ⟨-, rfl⟩
  · obtain ⟨g, dev, heq⟩ := commit_frame sb hrep
    rw [heq] at hu
    cases hu
    refine Sys.held_iff.mpr ⟨_, (getCache_unpinAll _ _ _).trans (congrArg _ ha), ?_⟩
    split <;> exact hacq
  · exact Sys.held_iff.mpr ⟨a, ha, hacq⟩

/-- If changes are synced before the block is released, unsynced changes are in held blocks. Only a
change makes a block dirty, and it is held then. -/
theorem Sys.DirtyHeld.step {sb : SuperBlock} {s t : Sys} {a : Action} (h : s.DirtyHeld)
    (hrep : s.cache.Rep) (ha : a.Simple) (hlegal : s.Legal a) (hclean : s.ReleasesClean a)
    (hstep : s.step sb a = .ok t) : t.DirtyHeld := by
  cases a with
  | acquire b => exact h.acquire hrep hstep
  | change c b d => exact h.change hlegal.2 hstep
  | sync c b =>
    cases c with
    | none =>
      obtain ⟨-, rfl⟩ := step_sync_null.mp hstep
      exact h.of_sync (fun x hx => hx) rfl
    | some c => exact h.sync hstep
  | release b => exact h.release hclean hstep
  | beginOp c =>
    obtain ⟨-, rfl⟩ := step_beginOp.mp hstep
    exact h
  | endOp c => exact h.endOp hrep hstep
  | alloc c => exact ha.elim
  | free c b => exact ha.elim
  | zero b =>
    cases step_zero.mp hstep
    exact h

/-- Unsynced changes belong to an operation that has not ended. -/
def Sys.OpenDirty (s : Sys) : Prop := ∀ b c, s.ghost.dirty b = some c → s.IsOpen c

/-- An operation ends when all of its changes are synced: no block has an unsynced change of this
context. -/
def Sys.EndsClean (s : Sys) : Action → Prop
  | .endOp c => ∀ blk ∈ s.cache.blocks, s.ghost.dirty blk.blockNo ≠ some c
  | _ => True

instance (s : Sys) (a : Action) : Decidable (s.EndsClean a) := by
  induction a using Action.casesOn <;> dsimp only [Sys.EndsClean] <;> infer_instance

/-- A change is recorded under an outstanding context, and the context ends only when it has none
left. So what an open operation has not synced cannot be committed by others. -/
theorem Sys.OpenDirty.step {sb : SuperBlock} {s t : Sys} {a : Action} (h : s.OpenDirty)
    (hheld : s.DirtyHeld) (ha : a.Simple) (hlegal : s.Legal a) (hends : s.EndsClean a)
    (hstep : s.step sb a = .ok t) : t.OpenDirty := by
  cases a with
  | acquire b =>
    obtain ⟨blk, cache, hacq, rfl⟩ := step_acquire.mp hstep
    exact h
  | change c b d =>
    obtain ⟨-, rfl⟩ := step_change.mp hstep
    intro x c' hx
    by_cases hxb : x = b
    · have : c = c' := by simpa [Ghost.change, hxb] using hx
      exact this ▸ hlegal.1
    · exact h x c' (by simpa [Ghost.change, Function.update_of_ne hxb] using hx)
  | sync c b =>
    -- The synced block is clean; the others are as they were.
    have hclean : ∀ g : Ghost, g.dirty = Function.update s.ghost.dirty b none → ∀ x c',
        g.dirty x = some c' → s.IsOpen c' := by
      intro g hg x c' hx
      rw [hg] at hx
      by_cases hxb : x = b
      · simp [hxb] at hx
      · exact h x c' (by simpa [Function.update_of_ne hxb] using hx)
    cases c with
    | none =>
      obtain ⟨-, rfl⟩ := step_sync_null.mp hstep
      exact hclean _ rfl
    | some c =>
      obtain ⟨ctx, ctx', cache, hc, hsync, rfl⟩ := step_sync.mp hstep
      intro x c' hx
      rw [Sys.IsOpen, map_fst_setOp]
      exact hclean _ rfl x c' hx
  | release b =>
    obtain ⟨-, rfl⟩ := step_release.mp hstep
    exact h
  | beginOp c =>
    obtain ⟨-, rfl⟩ := step_beginOp.mp hstep
    exact fun b c' hb => List.mem_cons_of_mem _ (h b c' hb)
  | endOp c =>
    obtain ⟨ctx, cache, -, -, rfl⟩ := step_endOp.mp hstep
    intro b c' hb
    have hdirty : s.ghost.dirty b = some c' := by
      dsimp only at hb
      split at hb <;> exact hb
    obtain ⟨blk, hblk, -⟩ := Sys.held_iff.mp (hheld b (by simp [hdirty]))
    obtain ⟨hmem, hno⟩ := getCache_eq_some hblk
    -- A dirty block is held, so it is in the cache, and the rule for the end of `c` is about it.
    have hne : c' ≠ c := by
      rintro rfl
      exact hends blk hmem (hno ▸ hdirty)
    exact isOpen_eraseOp (h _ c' hdirty) hne
  | alloc c => exact ha.elim
  | free c b => exact ha.elim
  | zero b =>
    cases step_zero.mp hstep
    exact h

/-- When the last operation ends, everything that was changed has been synced. -/
theorem Sys.OpenDirty.clean {s : Sys} (h : s.OpenDirty) (hheld : s.DirtyHeld) {limit c : Nat}
    (hacc : s.counters.Accounting limit) {ctx : OpContext} (hc : findOp c s.ops = some ctx)
    (hlast : s.cache.outstanding = 1) (hends : s.EndsClean (.endOp c)) (b : Nat) :
    s.ghost.dirty b = none := by
  by_contra hdirty
  obtain ⟨c', hc'⟩ := Option.ne_none_iff_exists'.mp hdirty
  have hcc : c' = c := by
    have := h b c' hc'
    simpa [Sys.IsOpen, ops_of_last hacc hc hlast] using this
  obtain ⟨blk, hblk, -⟩ := Sys.held_iff.mp (hheld b hdirty)
  obtain ⟨hmem, rfl⟩ := getCache_eq_some hblk
  exact hends blk hmem (hcc ▸ hc')

/-! ## Coherence

Only the log area is out of bounds: its blocks are written behind the back of the cache. -/

/-- The calls that read and write blocks, without the bitmap. They are what callers do with the data
of a block between `begin_op` and `end_op`. -/
def Action.Plain : Action → Prop
  | .alloc _ => False
  | .free _ _ => False
  | .zero _ => False
  | _ => True

instance (a : Action) : Decidable a.Plain := by
  induction a using Action.casesOn <;> dsimp only [Action.Plain] <;> infer_instance

theorem Action.Plain.simple {a : Action} (h : a.Plain) : a.Simple := by
  cases a <;> first | exact h | trivial

/-- Callers that stay out of the log area and sync their changes before they release the block. -/
def Sys.Careful (sb : SuperBlock) (s : Sys) (a : Action) : Prop :=
  a.Plain ∧ s.OutsideLog sb a ∧ s.ReleasesClean a

instance (sb : SuperBlock) (s : Sys) (a : Action) : Decidable (s.Careful sb a) := by
  unfold Sys.Careful
  infer_instance

/-- The invariant behind coherence: the cache is in order, its log fits, unsynced changes are in
held blocks, and every block outside the log is up to date. -/
structure Sys.Coherent (sb : SuperBlock) (s : Sys) : Prop extends s.Tidy sb where
  accounting : s.counters.Accounting sb.numLogBlocks.toNat
  dirty : s.DirtyHeld
  coh : ∀ b, ¬ logArea sb b → s.CohAt b

theorem Sys.Coherent.step {sb : SuperBlock} {s t : Sys} {a : Action} (h : s.Coherent sb)
    (hok : s.Careful sb a) (hstep : s.step sb a = .ok t)
    (hcap : t.cache.header.numBlocks ≤ logCapacity sb) : t.Coherent sb := by
  obtain ⟨hplain, hout, hclean⟩ := hok
  have hsimple := hplain.simple
  refine ⟨h.toTidy.step hsimple hout hstep hcap,
    (Sys.step_counters hout.legal hstep).accounting h.accounting,
    h.dirty.step h.rep hsimple hout.legal hclean hstep, fun b hb => ?_⟩
  refine (h.coh b hb).step h.toTidy h.accounting hb hsimple ?_ hstep
  rintro rfl
  exact hplain

/-- After `init_bcache` nothing is cached, and nothing has been synced. -/
theorem Sys.init_coherent (sb : SuperBlock) (d : Disk) : (Sys.init sb d).Coherent sb := by
  refine ⟨Sys.init_tidy sb d, Sys.init_accounting sb d _, ?_, fun b _ => ⟨fun _ _ => rfl, ?_⟩⟩
  · intro b hb
    exact absurd rfl hb
  · intro blk hblk
    obtain ⟨h, dev, heq⟩ := initBcache_eq sb d
    simp only [Sys.init, heq] at hblk
    cases hblk

/-- Whatever was evicted, logged or committed in between, `cache_acquire` returns the block with
the content of its last `sync`. -/
theorem acquire_returns_synced (sb : SuperBlock) (d : Disk) {s : Sys}
    (h : Runs sb (Sys.Careful sb) (fun u => u.cache.header.numBlocks ≤ logCapacity sb)
      (Sys.init sb d) s)
    {b : Nat} (hb : ¬ logArea sb b) {blk : Block} {cache : Cache}
    (hacq : cacheAcquire b s.cache = .ok (blk, cache)) :
    blk.blockNo = b ∧ blk.valid = true ∧ blk.data = s.synced b := by
  have hs : s.Coherent sb :=
    h.invariant (Sys.init_coherent sb d) fun u v a hu hok hstep hcap => hu.step hok hstep hcap
  have hrep' : cache.Rep := hs.rep.acquire hacq
  obtain ⟨hget, -⟩ := hs.rep.getCache_acquire hacq
  obtain ⟨hmem, hno⟩ := getCache_eq_some hget
  refine ⟨hno, hrep'.valid blk hmem, ?_⟩
  -- Nobody held the block, so it has no unsynced changes.
  have hclean : s.ghost.dirty b = none := by
    by_contra hdirty
    exact not_held_of_acquire hs.rep hacq (hs.dirty b hdirty)
  have hstep : s.step sb (.acquire b) = .ok { s with cache := cache } :=
    step_acquire.mpr ⟨blk, cache, hacq, rfl⟩
  have hcoh := ((hs.coh b hb).acquire hs.rep hstep).cached blk hget hclean
  have hdev : cache.device = s.cache.device := by
    obtain ⟨-, -, -, -, rfl⟩ := unsafeCacheAcquire_eq_ok.mp hacq
    simp
  rw [hcoh, Sys.synced, Sys.synced, hdev]

/-- A block is changed, synced and committed, and read again. -/
def writeAndCommit : List Action :=
  [.beginOp 0, .acquire 200, .change 0 200 (fun _ => 7), .sync (some 0) 200, .release 200,
    .endOp 0]

theorem acquire_returns_synced_committed : ∃ s blk cache,
    (Sys.init (smallSuperBlock 20) fun _ => .zero).exec (smallSuperBlock 20) writeAndCommit =
      .ok s ∧
    cacheAcquire 200 s.cache = .ok (blk, cache) ∧ blk.data = s.synced 200 := by
  obtain ⟨s, hexec, hruns⟩ := Runs.of_admits (smallSuperBlock 20) (Sys.Careful (smallSuperBlock 20))
    (fun u => u.cache.header.numBlocks ≤ logCapacity (smallSuperBlock 20))
    (Sys.init (smallSuperBlock 20) fun _ => .zero) writeAndCommit (by decide +kernel)
  have hfree : (((Sys.init (smallSuperBlock 20) fun _ => .zero).exec (smallSuperBlock 20)
      writeAndCommit).toOption.map fun s => (cacheAcquire 200 s.cache).toOption.isSome) =
      some true := by
    decide +kernel
  rw [hexec] at hfree
  cases hacq : cacheAcquire 200 s.cache with
  | error e =>
    rw [Except.toOption, Option.map_some, hacq] at hfree
    cases hfree
  | ok p =>
    obtain ⟨blk, cache⟩ := p
    obtain ⟨-, -, hdata⟩ := acquire_returns_synced _ _ hruns (b := 200) (by decide) hacq
    exact ⟨s, blk, cache, hexec, hacq, hdata⟩

end KernelAarch64.Fs
