import KernelAarch64.Fs.Cache.Crash
import Mathlib.Data.List.DropRight

/-!
# Crashes and the bitmap

`cache_alloc` logs the bitmap block, but it writes zeros over the block it hands out at once. If
the run is cut before the next commit, the zeros stay and the bitmap does not. That is harmless as
long as the block was free when the last group was committed. It is not when the block was freed in
the group that is still open: then the recovered bitmap says that the block is in use, and its
content is gone.

The main result is `keepsAllocated_of_allocatesFree`, with `Sys.AllocatesFree` for the condition on
the callers. Its invariant `Sys.SafeAlloc` adds one fact to the one of crash atomicity
(`Fs.Cache.Crash`): every zeroing past the log was of a block that the last commit before it has as
free. So at any cut a block has its committed content or is all zero and free on that disk
(`Zeroed.overlay_eq`), and recovery only brings committed groups back.
-/

namespace KernelAarch64.Fs

open KernelAarch64.Lib

/-- The bit of block `b` in the bitmap on disk `d`. -/
def bitmapBit (sb : SuperBlock) (d : Disk) (b : Nat) : Bool :=
  (d (bitmapBlock sb b)).bit (b % bitPerBlock)

/-- A write that does not go through the log: `cache_sync` without a context, or the zeros of
`cache_alloc`. -/
def Event.isDirect : Event → Bool
  | .group _ _ _ => false
  | .direct _ _ _ => true

/-- The disk after the last commit group among the events `es`. -/
def committedDisk (d : Disk) (es : List Event) : Disk := overlay d (es.rdropWhile Event.isDirect)

/-- The disk as of the last commit. -/
def Sys.lastCommit (s : Sys) : Disk := committedDisk s.cache.device.initial s.ghost.events

/-- Atomic operations that allocate and free blocks outside the log area. For `cache_alloc` the
block is the one it will return in this state. -/
def Sys.Operates (sb : SuperBlock) (s : Sys) : Action → Prop
  | .alloc c => s.Legal (.alloc c) ∧
    ∀ b ∈ s.allocChoice sb c, ¬ logArea sb b ∧ ¬ logArea sb (bitmapBlock sb b)
  | .free c b => s.Legal (.free c b) ∧ ¬ logArea sb (bitmapBlock sb b)
  | a => s.OutsideLog sb a ∧ ¬ a.IsDirect

instance (sb : SuperBlock) (s : Sys) (a : Action) : Decidable (s.Operates sb a) := by
  induction a using Action.casesOn <;> dsimp only [Sys.Operates] <;> infer_instance

/-- The first free block that `cache_alloc` finds was free when the last group was committed. -/
def Sys.AllocatesFree (sb : SuperBlock) (s : Sys) : Action → Prop
  | .alloc c => ∀ b ∈ s.allocChoice sb c, bitmapBit sb s.lastCommit b = false
  | _ => True

instance (sb : SuperBlock) (s : Sys) (a : Action) : Decidable (s.AllocatesFree sb a) := by
  induction a using Action.casesOn <;> dsimp only [Sys.AllocatesFree] <;> infer_instance

/-- Whatever the cut, the blocks that the recovered bitmap marks as allocated have the content
they had after the last commit group that reached the disk. -/
def Sys.KeepsAllocated (sb : SuperBlock) (s : Sys) : Prop :=
  ∀ k d', Reboots sb (s.cache.device.diskAt k) d' → ∀ b, ¬ logArea sb b →
    bitmapBit sb (initBcache sb d').device.disk b = true →
    (initBcache sb d').device.disk b = committedDisk s.cache.device.initial (s.eventsAt k) b

/-- These rules contain those for the single calls. -/
theorem Sys.Operates.legal {sb : SuperBlock} {s : Sys} {a : Action} (h : s.Operates sb a) :
    s.Legal a := by
  cases a with
  | alloc c => exact h.1
  | free c b => exact h.1
  | _ => exact h.1.legal

/-- None of these operations writes past the log but `cache_alloc`. -/
theorem Sys.Operates.not_isDirect {sb : SuperBlock} {s : Sys} {a : Action}
    (h : s.Operates sb a) : ¬ a.IsDirect := by
  cases a with
  | alloc c => exact id
  | free c b => exact id
  | _ => exact h.2

/-! ## Zeroed blocks

The history of the device is the list of its events; a prefix of it that ends with the zeroing of a
block is the moment when `cache_alloc` handed the block out. -/

/-- The blocks that were zeroed past the log had been free when the last group before was
committed. -/
def Zeroed (sb : SuperBlock) (d : Disk) (events : List Event) : Prop :=
  ∀ es p b x, es ++ [.direct p b x] <+: events →
    x = .zero ∧ ¬ logArea sb (bitmapBlock sb b) ∧ bitmapBit sb (committedDisk d es) b = false

section Zeroed

variable {sb : SuperBlock} {d : Disk} {events es : List Event}

/-- The property of an earlier history. -/
theorem Zeroed.isPrefix (h : Zeroed sb d events) (hes : es <+: events) : Zeroed sb d es :=
  fun fs p b x hfs => h fs p b x (hfs.trans hes)

/-- A commit is no zeroing. -/
theorem Zeroed.group (h : Zeroed sb d events) (p : Nat) (rs : List SyncRec)
    (ws : List (Nat × BlockData)) : Zeroed sb d (events ++ [.group p rs ws]) := by
  intro es q b x hes
  rcases List.prefix_concat_iff.mp hes with heq | hes
  · have := (List.append_inj' heq rfl).2
    cases this
  · exact h es q b x hes

/-- One more block is zeroed, which is free on the disk as of the last commit. -/
theorem Zeroed.direct (h : Zeroed sb d events) {b : Nat} (hbm : ¬ logArea sb (bitmapBlock sb b))
    (hbit : bitmapBit sb (committedDisk d events) b = false) (p : Nat) :
    Zeroed sb d (events ++ [.direct p b .zero]) := by
  intro es q b' x hes
  rcases List.prefix_concat_iff.mp hes with heq | hes
  · obtain ⟨rfl, hlast⟩ := List.append_inj' heq rfl
    cases hlast
    exact ⟨rfl, hbm, hbit⟩
  · exact h es q b' x hes

/-- A write past the log is not part of the committed disk. -/
theorem committedDisk_direct (p b : Nat) (x : BlockData) :
    committedDisk d (events ++ [.direct p b x]) = committedDisk d events := by
  rw [committedDisk, List.rdropWhile_concat_pos _ _ _ rfl, committedDisk]

/-- A block either has its content as of the last commit, or it was zeroed and had been free. By
induction on the events: a commit makes the first of the two true again. -/
theorem Zeroed.overlay_eq (h : Zeroed sb d events) (b : Nat) :
    overlay d events b = committedDisk d events b ∨
      (overlay d events b = .zero ∧ ¬ logArea sb (bitmapBlock sb b) ∧
        bitmapBit sb (committedDisk d events) b = false) := by
  induction events using List.reverseRecOn with
  | nil => exact .inl rfl
  | append_singleton es e ih =>
    cases e with
    | group p rs ws =>
      left
      rw [committedDisk, List.rdropWhile_concat_neg _ _ _ (by simp [Event.isDirect])]
    | direct p x v =>
      obtain ⟨rfl, hbm, hbit⟩ := h es p x v (List.prefix_refl _)
      have hover : overlay d (es ++ [.direct p x .zero]) =
          Function.update (overlay d es) x .zero := by
        rw [overlay_append]
        rfl
      rw [committedDisk_direct, hover]
      by_cases hb : b = x
      · subst hb
        exact .inr ⟨Function.update_self .., hbm, hbit⟩
      · rw [Function.update_of_ne hb]
        exact ih (h.isPrefix (List.prefix_append _ _))

end Zeroed

/-! ## The invariant

The step lemma is for the simple actions. Between two of them inside one `cache_alloc` the block
that is handed out must stay the same, which is why `lastCommit` has to be constant there. -/

/-- The invariant of crash atomicity, and the history of zeroed blocks. -/
structure Sys.SafeAlloc (sb : SuperBlock) (s : Sys) : Prop extends s.Safe sb where
  zeroed : Zeroed sb s.cache.device.initial s.ghost.events

/-- The steps that the calls of a run consist of: nothing is synced without a context, and a block
is zeroed only while its bit of the last commit is clear. -/
def Sys.OperatesFree (sb : SuperBlock) (s : Sys) (a : Action) : Prop :=
  s.OutsideLog sb a ∧ (∀ b, a ≠ .sync none b) ∧
    ∀ b, a = .zero b → ¬ logArea sb (bitmapBlock sb b) ∧ bitmapBit sb s.lastCommit b = false

/-- The step lemma. A commit and a zeroing add an event; the others leave the history alone. A
zeroed block was free when it was zeroed, which the rule of the run says. -/
theorem Sys.SafeAlloc.step {sb : SuperBlock} {s t : Sys} {a : Action} (h : s.SafeAlloc sb)
    (ha : a.Simple) (hok : s.OperatesFree sb a) (hstep : s.step sb a = .ok t)
    (hcap : t.cache.header.numBlocks ≤ logCapacity sb) : t.SafeAlloc sb := by
  refine ⟨h.toSafe.step ha hok.1 hstep hcap, ?_⟩
  cases a with
  | acquire b =>
    obtain ⟨blk, cache, hacq, rfl⟩ := step_acquire.mp hstep
    obtain ⟨a, -, -, -, rfl⟩ := unsafeCacheAcquire_eq_ok.mp hacq
    simpa using h.zeroed
  | change c b d =>
    obtain ⟨-, rfl⟩ := step_change.mp hstep
    exact h.zeroed
  | sync c b =>
    cases c with
    | none => exact absurd rfl (hok.2.1 b)
    | some c =>
      obtain ⟨ctx, ctx', cache, hc, hsync, rfl⟩ := step_sync.mp hstep
      obtain ⟨-, ⟨-, -, -, rfl⟩ | ⟨-, -, -, rfl⟩⟩ := unsafeCacheSync_ctx.mp hsync
      · exact h.zeroed
      · exact h.zeroed
  | release b =>
    obtain ⟨-, rfl⟩ := step_release.mp hstep
    exact h.zeroed
  | beginOp c =>
    obtain ⟨-, rfl⟩ := step_beginOp.mp hstep
    exact h.zeroed
  | endOp c =>
    have hlog : 0 < sb.numLogBlocks.toNat := by
      have := h.hdr.2
      omega
    obtain ⟨ctx, -, ⟨-, rfl⟩ | ⟨-, rfl⟩⟩ := step_endOp_cases h.rep h.fits hlog hstep
    · exact h.zeroed.group _ _ _
    · exact h.zeroed
  | alloc c => exact ha.elim
  | free c b => exact ha.elim
  | zero b =>
    cases step_zero.mp hstep
    obtain ⟨hbm, hbit⟩ := hok.2.2 b rfl
    exact h.zeroed.direct hbm hbit _

/-- The steps of one `cache_alloc` or `cache_free` do not commit, so the bitmap of the last commit
is the same before each of them. -/
theorem BitmapRuns.lastCommit_eq {sb : SuperBlock} {c bm : Nat} {z : Option Nat}
    {P : LogHeader → Prop} {s t : Sys} (h : BitmapRuns sb c bm z P s t) :
    t.lastCommit = s.lastCommit := by
  apply h.invariant (I := fun u => u.lastCommit = s.lastCommit) rfl
  rintro u v a hu ⟨ha, -, -⟩ hstep -
  rw [← hu]
  cases a with
  | acquire b =>
    obtain ⟨blk, cache, hacq, rfl⟩ := step_acquire.mp hstep
    obtain ⟨a, -, -, -, rfl⟩ := unsafeCacheAcquire_eq_ok.mp hacq
    simp [Sys.lastCommit]
  | change c b d =>
    obtain ⟨-, rfl⟩ := step_change.mp hstep
    rfl
  | sync c b =>
    obtain ⟨rfl, -⟩ := ha
    obtain ⟨ctx, ctx', cache, hc, hsync, rfl⟩ := step_sync.mp hstep
    obtain ⟨-, ⟨-, -, -, rfl⟩ | ⟨-, -, -, rfl⟩⟩ := unsafeCacheSync_ctx.mp hsync <;> rfl
  | release b =>
    obtain ⟨-, rfl⟩ := step_release.mp hstep
    rfl
  | zero b =>
    cases step_zero.mp hstep
    exact committedDisk_direct _ _ _
  | beginOp c => exact ha.elim
  | endOp c => exact ha.elim
  | alloc c => exact ha.elim
  | free c b => exact ha.elim

/-- The actions of a call with bitmap block `bm` stay out of the log area. -/
theorem BitmapAction.operatesFree {sb : SuperBlock} {c bm : Nat} {z : Option Nat} {s : Sys}
    {a : Action} (ha : BitmapAction c bm z a) (hlegal : s.Legal a) (hbm : ¬ logArea sb bm)
    (hz : ∀ b ∈ z, ¬ logArea sb b ∧ ¬ logArea sb (bitmapBlock sb b) ∧
      bitmapBit sb s.lastCommit b = false) : s.OperatesFree sb a := by
  refine ⟨ha.outsideLog hlegal hbm fun b hb => (hz b hb).1, ?_, ?_⟩
  · rintro b rfl
    cases ha.1
  · rintro b rfl
    exact (hz b ha).2

/-- Along a run, with `cache_alloc` and `cache_free` replaced by their steps. Each of these is a
simple action, and for those there is `SafeAlloc.step`. -/
theorem Runs.safeAlloc {sb : SuperBlock} {s t : Sys}
    (h : Runs sb (fun u a => u.Operates sb a ∧ u.AllocatesFree sb a)
      (fun u => u.cache.header.numBlocks ≤ logCapacity sb) s t) (hs : s.SafeAlloc sb) :
    t.SafeAlloc sb := by
  refine Runs.expand (P := fun g => g.numBlocks ≤ logCapacity sb) h hs (fun u hu => hu.rep)
    (fun u hu => hu.fits.capacity) (fun u a ha => ha.1.legal)
    (fun u v a ha hu hok hstep hcap => hu.step ha hok hstep hcap) ?_ ?_ ?_
  · rintro u a ha hu ⟨hop, -⟩
    have hop : u.OutsideLog sb a ∧ ¬ a.IsDirect := by
      cases a <;> first | exact hop | exact ha.elim
    refine ⟨hop.1, ?_, ?_⟩
    · rintro b rfl
      exact hop.2 trivial
    · rintro b rfl
      exact absurd trivial hop.2
  · rintro u c b v a hu ⟨⟨-, hop⟩, hfree⟩ hchoice hruns ha hlegal -
    obtain ⟨hb, hbm⟩ := hop b hchoice
    apply ha.operatesFree hlegal hbm
    rintro b' hb'
    cases hb'
    rw [hruns.lastCommit_eq]
    exact ⟨hb, hbm, hfree b hchoice⟩
  · rintro u c b v a hu ⟨⟨-, hbm⟩, -⟩ hruns ha hlegal -
    exact ha.operatesFree hlegal hbm (by simp)

/-- Crash atomicity with allocation: if `cache_alloc` never hands out a block that was freed in
the group still open, an allocated block never loses its content. -/
theorem keepsAllocated_of_allocatesFree (sb : SuperBlock) (d : Disk) {s : Sys}
    (h : Runs sb (fun u a => u.Operates sb a ∧ u.AllocatesFree sb a)
      (fun u => u.cache.header.numBlocks ≤ logCapacity sb) (Sys.init sb d) s) :
    s.KeepsAllocated sb := by
  intro k d' hd' b hb hbit
  rcases Nat.eq_zero_or_pos sb.numLogBlocks.toNat with hlog | hlog
  · obtain ⟨hdev, -, hevents⟩ := h.untouched
      (fun u a ha => ⟨ha.1.legal, ha.1.not_isDirect⟩) hlog (Sys.init_accounting sb d _)
    rw [Reboots.of_untouched hdev hd', hdev, Sys.eventsAt, hevents]
    rfl
  · have hinit : (Sys.init sb d).SafeAlloc sb := by
      refine ⟨Sys.init_safe sb d hlog, ?_⟩
      intro es p b x hes
      have := List.prefix_nil.mp hes
      simp at this
    have hs := h.safeAlloc hinit
    obtain ⟨hdisk, -⟩ := ((hs.cut k).reboots hd').initBcache
    have hzeroed := hs.zeroed.isPrefix (filter_pos_isPrefix hs.sorted k)
    rw [hdisk b hb]
    rcases hzeroed.overlay_eq b with heq | ⟨-, hbm, hclear⟩
    · exact heq
    · -- The block was zeroed, so it was free at the last commit, and so is its recovered bit.
      exfalso
      rw [bitmapBit, hdisk _ hbm] at hbit
      rcases hzeroed.overlay_eq (bitmapBlock sb b) with heq | ⟨hzero, -⟩
      · rw [Sys.eventsAt, heq] at hbit
        rw [bitmapBit, hbit] at hclear
        cases hclear
      · rw [Sys.eventsAt, hzero, BlockData.bit_zero] at hbit
        cases hbit

/-- A disk on which every block is in use; block `30` holds a file. -/
def fullDisk : Disk := fun b =>
  if b = 110 then fun _ => 255 else if b = 30 then fun _ => 5 else .zero

/-- A block is freed in one operation and its commit is waited for before the next one allocates
it again. -/
def freeThenAlloc : List Action := [.beginOp 0, .free 0 30, .endOp 0, .beginOp 1, .alloc 1]

/-- This order of calls is safe. -/
theorem keepsAllocated_free_then_alloc : ∃ s,
    (Sys.init (smallSuperBlock 20) fullDisk).exec (smallSuperBlock 20) freeThenAlloc = .ok s ∧
    s.KeepsAllocated (smallSuperBlock 20) := by
  obtain ⟨s, hexec, hruns⟩ := Runs.of_admits (smallSuperBlock 20)
    (fun u a => u.Operates (smallSuperBlock 20) a ∧ u.AllocatesFree (smallSuperBlock 20) a)
    (fun u => u.cache.header.numBlocks ≤ logCapacity (smallSuperBlock 20))
    (Sys.init (smallSuperBlock 20) fullDisk) freeThenAlloc (by decide +kernel)
  exact ⟨s, hexec, keepsAllocated_of_allocatesFree _ _ hruns⟩

/-- The same block freed and allocated again in one operation. -/
def freeAndAlloc : List Action := [.beginOp 0, .free 0 30, .alloc 0]

/-- The power is cut right after `cache_alloc`: the recovered bitmap has block `30` in use, and
its content is lost. -/
theorem loses_freed_and_allocated : ∃ s,
    (Sys.init (smallSuperBlock 20) fullDisk).exec (smallSuperBlock 20) freeAndAlloc = .ok s ∧
    Runs (smallSuperBlock 20) (Sys.Operates (smallSuperBlock 20))
      (fun u => u.cache.header.numBlocks ≤ logCapacity (smallSuperBlock 20))
      (Sys.init (smallSuperBlock 20) fullDisk) s ∧
    ¬ s.KeepsAllocated (smallSuperBlock 20) := by
  obtain ⟨s, hexec, hruns⟩ := Runs.of_admits (smallSuperBlock 20)
    (Sys.Operates (smallSuperBlock 20))
    (fun u => u.cache.header.numBlocks ≤ logCapacity (smallSuperBlock 20))
    (Sys.init (smallSuperBlock 20) fullDisk) freeAndAlloc (by decide +kernel)
  refine ⟨s, hexec, hruns, fun hkeeps => ?_⟩
  -- The bit of the block and its first byte, as recovered and as of the last commit.
  have hcheck : (((Sys.init (smallSuperBlock 20) fullDisk).exec (smallSuperBlock 20)
      freeAndAlloc).toOption.map fun s =>
        let d := (initBcache (smallSuperBlock 20) (s.cache.device.diskAt 1)).device.disk
        (bitmapBit (smallSuperBlock 20) d 30, d 30 0,
          committedDisk s.cache.device.initial (s.eventsAt 1) 30 0)) = some (true, 0, 5) := by
    decide +kernel
  rw [hexec] at hcheck
  simp only [Except.toOption, Option.map_some, Option.some.injEq, Prod.mk.injEq] at hcheck
  obtain ⟨hbit, hzero, hfive⟩ := hcheck
  have hsame := congrFun (hkeeps 1 _ .refl 30 (by decide) hbit) 0
  rw [hzero, hfive] at hsame
  exact absurd hsame (by decide)

end KernelAarch64.Fs
