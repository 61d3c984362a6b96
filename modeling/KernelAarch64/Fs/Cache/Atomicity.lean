import KernelAarch64.Fs.Cache.Coherence

/-!
# Crash atomicity of the log

Callers that change blocks inside an operation, sync what they changed before they release it, and
always sync under a context. Then every event is a commit group, and what a group makes permanent
is the synced content. A cut of the run shows the syncs up to the end of some group; as a context
is used by one group only, an operation is there as a whole or not at all.

The main result is `crash_atomic`. It joins the two views of a run: `Sys.Safe` of `Fs.Cache.Crash`
says which events a cut shows, and `Sys.Coherent` of `Fs.Cache.Coherence` says that what a commit
writes is the synced content (`Sys.Atomic.content_commit`). `Sys.Atomic` keeps the events and the
history of syncs in step: the syncs of all groups so far are the syncs before `base`, in order, and
no context of a group is used again.
-/

namespace KernelAarch64.Fs

open KernelAarch64.Lib

/-- The use of the cache for atomic operations. -/
def Sys.Transactional (sb : SuperBlock) (s : Sys) (a : Action) : Prop :=
  s.Careful sb a ∧ s.EndsClean a ∧ ¬ a.IsDirect

instance (sb : SuperBlock) (s : Sys) (a : Action) : Decidable (s.Transactional sb a) := by
  unfold Sys.Transactional
  infer_instance

/-- What a cut after the events `es` shows: outside the log, the syncs of some operations in order,
and of these operations all of them. -/
structure Sys.CutAt (sb : SuperBlock) (s : Sys) (es : List Event) : Prop where
  /-- The content of the last `sync` among the groups. -/
  content : ∀ b, ¬ logArea sb b → overlay s.cache.device.initial es b =
    applyWrites s.cache.device.initial ((es.flatMap Event.recs).map SyncRec.write) b
  /-- The syncs of whole operations. -/
  whole : ∃ rest, s.ghost.hist = es.flatMap Event.recs ++ rest ∧
    ∀ r ∈ es.flatMap Event.recs, ∀ r' ∈ rest, r.ctx ≠ r'.ctx

/-- The event is the write of a header that lists its blocks. This one write on the device is what
makes them permanent. -/
def Sys.HeaderWrite (sb : SuperBlock) (s : Sys) (e : Event) : Prop :=
  ∃ d, s.cache.device.writes[e.pos]? = some (sb.logStart.toNat, d) ∧
    (diskHeader d).entries = e.writes.map Prod.fst

/-- The invariant behind crash atomicity. What is on the disk after a cut is a prefix of the groups,
and no context has syncs in two of them. -/
structure Sys.Atomic (sb : SuperBlock) (s : Sys) : Prop where
  safe : s.Safe sb
  coherent : s.Coherent sb
  openDirty : s.OpenDirty
  begun : ∀ r ∈ s.ghost.hist, ∃ c ∈ s.begun, r.ctx = some c
  /-- The contexts of the committed groups have ended. -/
  closed : ∀ r ∈ s.ghost.events.flatMap Event.recs, ∀ c, r.ctx = some c → ¬ s.IsOpen c
  baseLe : s.ghost.base ≤ s.ghost.hist.length
  chunks : s.ghost.events.flatMap Event.recs = s.ghost.hist.take s.ghost.base
  cuts : ∀ es, es <+: s.ghost.events → s.CutAt sb es
  header : ∀ e ∈ s.ghost.events, s.HeaderWrite sb e

namespace Sys.Atomic

variable {sb : SuperBlock} {s t : Sys}

/-- A step that neither syncs nor commits. It may open an operation, which has no syncs yet, or end
one that leaves them to the next commit. -/
theorem of_ghost (h : s.Atomic sb) (hsafe : t.Safe sb) (hcoh : t.Coherent sb)
    (hdev : t.cache.device = s.cache.device) (hhist : t.ghost.hist = s.ghost.hist)
    (hbase : t.ghost.base = s.ghost.base) (hevents : t.ghost.events = s.ghost.events)
    (hbegun : s.begun ⊆ t.begun) (hopen : ∀ c ∈ s.begun, t.IsOpen c → s.IsOpen c)
    (hdirty : t.OpenDirty) : t.Atomic sb := by
  refine ⟨hsafe, hcoh, hdirty, ?_, ?_, ?_, ?_, ?_, ?_⟩
  · intro r hr
    obtain ⟨c, hc, hrc⟩ := h.begun r (hhist ▸ hr)
    exact ⟨c, hbegun hc, hrc⟩
  · intro r hr c hrc ho
    rw [hevents] at hr
    have hmem : r ∈ s.ghost.hist := by
      rw [h.chunks] at hr
      exact List.mem_of_mem_take hr
    obtain ⟨c', hc', hrc'⟩ := h.begun r hmem
    cases hrc.symm.trans hrc'
    exact h.closed r hr c hrc (hopen c hc' ho)
  · rw [hbase, hhist]
    exact h.baseLe
  · rw [hevents, hhist, hbase, h.chunks]
  · intro es hes
    rw [hevents] at hes
    obtain ⟨hcontent, rest, hrest, hsep⟩ := h.cuts es hes
    refine ⟨?_, rest, hhist.trans hrest, hsep⟩
    rw [hdev]
    exact hcontent
  · intro e he
    rw [hevents] at he
    obtain ⟨d, hd, hentries⟩ := h.header e he
    exact ⟨d, by rw [hdev, hd], hentries⟩

/-- A `sync` of an open operation joins the group of the next commit. Its context is open, so it has
no sync in an earlier group. -/
theorem sync (h : s.Atomic sb) {c b : Nat} (hopen : s.IsOpen c) (hsafe : t.Safe sb)
    (hcoh : t.Coherent sb) (hdirty : t.OpenDirty)
    (hstep : s.step sb (.sync (some c) b) = .ok t) : t.Atomic sb := by
  obtain ⟨ctx, ctx', cache, hc, hsync, rfl⟩ := step_sync.mp hstep
  have hdev : cache.device = s.cache.device := by
    obtain ⟨-, ⟨-, -, -, rfl⟩ | ⟨-, -, -, rfl⟩⟩ := unsafeCacheSync_ctx.mp hsync <;> rfl
  -- The contexts stay as they are.
  have hops : ∀ c', Sys.IsOpen ⟨cache, setOp c ctx' s.ops, s.begun,
      s.ghost.sync (some c) b (s.cache.dataOf b)⟩ c' ↔ s.IsOpen c' := by
    intro c'
    simp only [Sys.IsOpen, map_fst_setOp]
  refine ⟨hsafe, hcoh, hdirty, ?_, ?_, ?_, ?_, ?_, ?_⟩
  · intro r hr
    rcases List.mem_append.mp hr with hr | hr
    · exact h.begun r hr
    · cases List.mem_singleton.mp hr
      exact ⟨c, h.coherent.accounting.begun c hopen, rfl⟩
  · intro r hr c' hrc
    rw [hops]
    exact h.closed r hr c' hrc
  · show s.ghost.base ≤ (s.ghost.hist ++ [_]).length
    rw [List.length_append]
    exact Nat.le_add_right_of_le h.baseLe
  · show s.ghost.events.flatMap Event.recs = (s.ghost.hist ++ [_]).take s.ghost.base
    rw [List.take_append_of_le_length h.baseLe, h.chunks]
  · intro es hes
    obtain ⟨hcontent, rest, hrest, hsep⟩ := h.cuts es hes
    refine ⟨?_, rest ++ [⟨some c, b, s.cache.dataOf b⟩], ?_, ?_⟩
    · dsimp only
      rw [hdev]
      exact hcontent
    · show s.ghost.hist ++ [_] = _
      rw [hrest, List.append_assoc]
    · intro r hr r' hr'
      rcases List.mem_append.mp hr' with hr' | hr'
      · exact hsep r hr r' hr'
      · -- The context of the new record is open, those of the groups have ended.
        cases List.mem_singleton.mp hr'
        intro heq
        have hmem : r ∈ s.ghost.events.flatMap Event.recs := by
          obtain ⟨fs, hfs⟩ : es <+: s.ghost.events := hes
          rw [← hfs, List.flatMap_append]
          exact List.mem_append_left _ hr
        exact h.closed r hmem c heq hopen
  · intro e he
    obtain ⟨d, hd, hentries⟩ := h.header e he
    exact ⟨d, by dsimp only; rw [hdev, hd], hentries⟩

/-- What a commit makes permanent is what was synced: the logged blocks have their content of the
last `sync` in the cache, and all others are on the device already. -/
theorem content_commit (h : s.Atomic sb) (hclean : ∀ b, s.ghost.dirty b = none) {b : Nat}
    (hb : ¬ logArea sb b) :
    applyWrites (overlay s.cache.device.initial s.ghost.events)
      (s.cache.header.entries.map fun x => (x, s.cache.dataOf x)) b = s.synced b := by
  rw [applyWrites_map]
  split
  · next hmem =>
    obtain ⟨blk, hblk⟩ := h.safe.rep.getCache_entries hmem
    rw [Cache.dataOf_of_getCache hblk]
    exact (h.coherent.coh b hb).cached blk hblk (hclean b)
  · next hmem =>
    rw [← h.safe.disk_eq hb]
    exact (h.coherent.coh b hb).disk hmem (hclean b)

/-- The end of an operation. The last one commits the group of all syncs since the commit before; by
then every context in it has ended. -/
theorem endOp (h : s.Atomic sb) {c : Nat}
    (hends : s.EndsClean (.endOp c)) (hsafe : t.Safe sb) (hcoh : t.Coherent sb)
    (hdirty : t.OpenDirty) (hstep : s.step sb (.endOp c) = .ok t) : t.Atomic sb := by
  have hlog := log_pos_of_endOp h.coherent.accounting hstep
  obtain ⟨ctx, hc, ⟨hlast, rfl⟩ | ⟨hmore, rfl⟩⟩ :=
    step_endOp_cases h.safe.rep h.safe.fits hlog hstep
  · have hclean := h.openDirty.clean h.coherent.dirty h.coherent.accounting hc hlast hends
    have hops : eraseOp c s.ops = [] := by
      rw [ops_of_last h.coherent.accounting hc hlast]
      simp [eraseOp]
    -- The groups and the pending syncs are all syncs so far.
    have hall : s.ghost.events.flatMap Event.recs ++ s.ghost.hist.drop s.ghost.base =
        s.ghost.hist := by
      rw [h.chunks, List.take_append_drop]
    refine ⟨hsafe, hcoh, hdirty, h.begun, ?_, Nat.le_refl _, ?_, ?_, ?_⟩
    · intro r hr c' hrc hopen
      simp [Sys.IsOpen, hops] at hopen
    · simp only [Ghost.commit, List.flatMap_append, List.flatMap_cons, List.flatMap_nil,
        List.append_nil, Event.recs, List.take_length]
      exact hall
    · intro es hes
      simp only [Ghost.commit] at hes
      rcases List.prefix_concat_iff.mp hes with rfl | hes
      · refine ⟨fun b hb => ?_, [], ?_, by simp⟩
        · rw [overlay_append, List.flatMap_append]
          simp only [List.flatMap_cons, List.flatMap_nil, List.append_nil, Event.recs, hall]
          rw [overlay, List.flatMap_cons, List.flatMap_nil, List.append_nil]
          exact h.content_commit hclean hb
        · simp only [List.flatMap_append, List.flatMap_cons, List.flatMap_nil, List.append_nil,
            Event.recs, hall]
          rfl
      · obtain ⟨hcontent, rest, hrest, hsep⟩ := h.cuts es hes
        exact ⟨hcontent, rest, hrest, hsep⟩
    · intro e he
      simp only [Ghost.commit, List.mem_append, List.mem_singleton] at he
      rcases he with he | rfl
      · obtain ⟨d, hd, hentries⟩ := h.header e he
        refine ⟨d, ?_, hentries⟩
        have hpast := h.safe.past e he
        simp only [Cache.committed, Device.writes_append]
        rw [List.getElem?_append_left hpast, hd]
      · refine ⟨s.cache.header.toBlock, ?_, ?_⟩
        · simp only [Event.pos, Sys.nextPos, Cache.committed, Device.writes_append,
            RedoLog.commitWrites, List.append_assoc]
          rw [List.getElem?_append_right (by omega), List.getElem?_append_right (by simp)]
          simp
        · have hhomes := homes_toBlock sb s.cache.header h.safe.fits.le_logMaxSize
            h.safe.fits.usize
          rw [redoLog_homes] at hhomes
          rw [hhomes]
          simp [Event.writes, Function.comp_def]
  · refine h.of_ghost hsafe hcoh rfl rfl rfl rfl (List.Subset.refl _) ?_ hdirty
    intro c' _ hopen
    exact ((eraseOp_sublist c s.ops).map Prod.fst).subset hopen

/-- Every step of a transactional run keeps the invariant. One case for each action; those that
touch neither the log nor the history are `of_ghost`. -/
theorem step (h : s.Atomic sb) {a : Action} (hok : s.Transactional sb a)
    (hstep : s.step sb a = .ok t) (hcap : t.cache.header.numBlocks ≤ logCapacity sb) :
    t.Atomic sb := by
  obtain ⟨hcareful, hends, hdirect⟩ := hok
  have hsimple := hcareful.1.simple
  have hlegal := hcareful.2.1.legal
  have hsafe := h.safe.step hsimple hcareful.2.1 hstep hcap
  have hcoh := h.coherent.step hcareful hstep hcap
  have hdirty := h.openDirty.step h.coherent.dirty hsimple hlegal hends hstep
  cases a with
  | acquire b =>
    obtain ⟨blk, cache, hacq, rfl⟩ := step_acquire.mp hstep
    obtain ⟨a, -, -, -, rfl⟩ := unsafeCacheAcquire_eq_ok.mp hacq
    exact h.of_ghost hsafe hcoh (by simp) rfl rfl rfl (List.Subset.refl _) (fun _ _ ho => ho) hdirty
  | change c b d =>
    obtain ⟨-, rfl⟩ := step_change.mp hstep
    exact h.of_ghost hsafe hcoh rfl rfl rfl rfl (List.Subset.refl _) (fun _ _ ho => ho) hdirty
  | sync c b =>
    cases c with
    | none => exact absurd trivial hdirect
    | some c => exact h.sync hlegal.1 hsafe hcoh hdirty hstep
  | release b =>
    obtain ⟨-, rfl⟩ := step_release.mp hstep
    exact h.of_ghost hsafe hcoh rfl rfl rfl rfl (List.Subset.refl _) (fun _ _ ho => ho) hdirty
  | beginOp c =>
    obtain ⟨-, rfl⟩ := step_beginOp.mp hstep
    refine h.of_ghost hsafe hcoh rfl rfl rfl rfl (List.subset_cons_self _ _) ?_ hdirty
    intro c' hc' hopen
    rcases List.mem_cons.mp hopen with rfl | hopen
    · exact absurd hc' hlegal
    · exact hopen
  | endOp c => exact h.endOp hends hsafe hcoh hdirty hstep
  | alloc c => exact hsimple.elim
  | free c b => exact hsimple.elim
  | zero b => exact hcareful.1.elim

end Sys.Atomic

/-- No group has been committed yet, so that the content is that of the disk the system was started
with. -/
theorem Sys.init_atomic (sb : SuperBlock) (d : Disk) (hlog : 0 < sb.numLogBlocks.toNat) :
    (Sys.init sb d).Atomic sb := by
  refine ⟨Sys.init_safe sb d hlog, Sys.init_coherent sb d, ?_, ?_, ?_, Nat.le_refl _, rfl, ?_, ?_⟩
  · intro b c hb
    cases hb
  · intro r hr
    cases hr
  · intro r hr
    cases hr
  · intro es hes
    rw [List.prefix_nil.mp hes]
    exact ⟨fun _ _ => rfl, [], rfl, by simp⟩
  · intro e he
    cases he

/-! ## Crash atomicity

The number `k` of device writes and the number of interrupted recoveries are arbitrary. -/

/-- The syncs of the commit groups whose header write is among the first `k` device writes. -/
def Sys.committed (s : Sys) (k : Nat) : List SyncRec :=
  (s.eventsAt k).flatMap Event.recs

/-- Crash atomicity of the log. Cut a run after `k` device writes and recover, however often the
recovery is cut itself. The disk outside the log area is then the initial one with the syncs of
the commit groups on top whose header was written; these are all syncs of some operations and none
of the others; and the log is empty. -/
theorem crash_atomic (sb : SuperBlock) (d : Disk) {s : Sys}
    (h : Runs sb (Sys.Transactional sb) (fun u => u.cache.header.numBlocks ≤ logCapacity sb)
      (Sys.init sb d) s)
    (k : Nat) {d' : Disk} (hd' : Reboots sb (s.cache.device.diskAt k) d') :
    (∀ b, ¬ logArea sb b → (initBcache sb d').device.disk b =
      applyWrites (Sys.init sb d).cache.device.disk ((s.committed k).map SyncRec.write) b) ∧
    (diskHeader ((initBcache sb d').device.disk sb.logStart.toNat)).numBlocks = 0 ∧
    (∃ rest, s.ghost.hist = s.committed k ++ rest ∧
      ∀ c, (∀ r ∈ s.committed k, r.ctx ≠ some c) ∨ ∀ r ∈ rest, r.ctx ≠ some c) ∧
    ∀ e ∈ s.ghost.events, s.HeaderWrite sb e := by
  rcases Nat.eq_zero_or_pos sb.numLogBlocks.toNat with hlog | hlog
  · obtain ⟨hdev, hhist, hevents⟩ := h.untouched
      (fun u a ha => ⟨ha.1.2.1.legal, ha.2.2⟩) hlog (Sys.init_accounting sb d _)
    have hevents : s.ghost.events = [] := hevents
    have hhist : s.ghost.hist = [] := hhist
    obtain ⟨g, hg⟩ := Sys.init_header sb d
    rw [Reboots.of_untouched hdev hd', Sys.committed, Sys.eventsAt, hevents, hhist, hg]
    exact ⟨fun _ _ => rfl, LogHeader.numBlocks_load_toBlock_clear _ g, ⟨[], rfl, by simp⟩,
      by simp⟩
  · have hinv : s.Atomic sb ∧
        s.cache.device.initial = (Sys.init sb d).cache.device.initial := by
      refine h.invariant (I := fun u => u.Atomic sb ∧
        u.cache.device.initial = (Sys.init sb d).cache.device.initial)
        ⟨Sys.init_atomic sb d hlog, rfl⟩ ?_
      rintro u v a ⟨hu, hinit⟩ hok hstep hcap
      exact ⟨hu.step hok hstep hcap,
        (hu.safe.initial_eq hu.coherent.accounting hok.1.1.simple hstep).trans hinit⟩
    obtain ⟨hs, hinit⟩ := hinv
    obtain ⟨hcontent, rest, hrest, hsep⟩ := hs.cuts _ (filter_pos_isPrefix hs.safe.sorted k)
    have hcut := hs.safe.cut k
    obtain ⟨hdisk, hhdr⟩ := (hcut.reboots hd').initBcache
    refine ⟨fun b hb => ?_, hhdr, ⟨rest, hrest, fun c => ?_⟩, hs.header⟩
    · rw [hdisk b hb, Sys.eventsAt, hcontent b hb, hinit]
      rfl
    · by_cases hc : ∃ r ∈ s.committed k, r.ctx = some c
      · obtain ⟨r, hr, hrc⟩ := hc
        exact .inr fun r' hr' hrc' => hsep r hr r' hr' (hrc.trans hrc'.symm)
      · exact .inl fun r hr hrc => hc ⟨r, hr, hrc⟩

/-- Two operations in one group and a third one in the next, cut in the middle. -/
def threeOperations : List Action :=
  [.beginOp 0, .beginOp 1, .acquire 200, .change 0 200 (fun _ => 7), .sync (some 0) 200,
    .release 200, .acquire 201, .change 1 201 (fun _ => 8), .sync (some 1) 201, .release 201,
    .endOp 0, .endOp 1, .beginOp 2, .acquire 200, .change 2 200 (fun _ => 9), .sync (some 2) 200,
    .release 200, .endOp 2]

theorem crash_atomic_three : ∃ s,
    (Sys.init (smallSuperBlock 30) fun _ => .zero).exec (smallSuperBlock 30) threeOperations =
      .ok s ∧
    (diskHeader ((initBcache (smallSuperBlock 30) (s.cache.device.diskAt 7)).device.disk
      2)).numBlocks = 0 := by
  obtain ⟨s, hexec, hruns⟩ := Runs.of_admits (smallSuperBlock 30)
    (Sys.Transactional (smallSuperBlock 30))
    (fun u => u.cache.header.numBlocks ≤ logCapacity (smallSuperBlock 30))
    (Sys.init (smallSuperBlock 30) fun _ => .zero) threeOperations (by decide +kernel)
  obtain ⟨-, hhdr, -⟩ := crash_atomic _ _ hruns 7 .refl
  exact ⟨s, hexec, hhdr⟩

end KernelAarch64.Fs
