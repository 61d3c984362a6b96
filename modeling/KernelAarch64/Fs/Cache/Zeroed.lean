import KernelAarch64.Fs.Cache.Crash

/-!
# New blocks

`cache_alloc` promises a block that is all zero. It writes the zeros to the device and does not look
into the cache, where a copy of the block may be left from an earlier use. `cache_acquire` returns
that copy, and if the block was logged before it was freed, the next commit writes the copy back to
the device. A block without such a copy stays all zero, in the cache and on the device, until
somebody changes it.

The main result is `alloc_newBlock_iff`. What decides is the cached copy after the search through
the bitmap, which may evict it (`getCache_alloc`). One direction goes through `Sys.ZeroInv`, the
invariant that a block is all zero wherever it is, along the runs that do not touch the block; for
the other, `cacheAcquire_of_copy` and `Sys.NewBlock.copy_free` show what a caller gets when a copy
with other content is left.
-/

namespace KernelAarch64.Fs

open KernelAarch64.Lib

/-! ## The search through the bitmap

On its way to the block it returns, `cache_alloc` acquires and releases one bitmap block after the
other, and each of these acquisitions may evict. As a function on the cache this is a fold of
`touch`. -/

/-- The cache after block `x` was acquired and released. -/
def Cache.touch (s : Cache) (x : Nat) : Cache :=
  (evict ((loadBlock x s).setBlock x Block.lock)).setBlock x Block.unlock

/-- The bitmap blocks up to the one of block `b`, in the order of the search. -/
def searchBlocks (sb : SuperBlock) (b : Nat) : List Nat :=
  List.range' sb.bitmapStart.toNat (b / bitPerBlock + 1)

section Search

variable {sb : SuperBlock} {b x : Nat} {s t : Cache}

/-- Looking into a bitmap block keeps the representation invariant. -/
theorem Cache.Rep.touch (h : s.Rep) (x : Nat) : (s.touch x).Rep :=
  ((h.loadBlock x).lock x).evict.unlock x

/-- A sync changes the copy of its own block only. -/
theorem getCache_sync_of_ne {ctx r : Option OpContext} (hx : b ≠ x)
    (hsync : unsafeCacheSync ctx x s = .ok (r, t)) : getCache b t.blocks = getCache b s.blocks := by
  cases ctx with
  | none =>
    obtain ⟨-, -, -, rfl⟩ := unsafeCacheSync_null.mp hsync
    rfl
  | some ctx =>
    obtain ⟨-, ⟨-, -, -, rfl⟩ | ⟨-, -, -, rfl⟩⟩ := unsafeCacheSync_ctx.mp hsync <;>
      exact getCache_setCache_of_ne (f := Block.pin) (fun _ => rfl) hx _

/-- The search leaves of the copies of other blocks what it does not evict. By induction on the
bitmap blocks that it looks at, all of which are other blocks. -/
theorem getCache_allocFrom {ctx r : Option OpContext} {n k : Nat}
    (hne : ∀ i < n, sb.bitmapStart.toNat + (k + i) ≠ b)
    (hrun : cacheAllocFrom sb ctx n k s = .ok (x, r, t)) :
    k ≤ x / bitPerBlock ∧ getCache b t.blocks =
      getCache b ((List.range' (sb.bitmapStart.toNat + k) (x / bitPerBlock + 1 - k)).foldl
        Cache.touch s).blocks := by
  induction n generalizing k s with
  | zero => cases hrun
  | succ n ih =>
    have hk : b ≠ sb.bitmapStart.toNat + k := (hne 0 (Nat.succ_pos n)).symm
    obtain ⟨⟨blk, u⟩, hacq, hrun⟩ := bind_eq_ok.mp hrun
    obtain ⟨-, -, -, -, rfl⟩ := unsafeCacheAcquire_eq_ok.mp hacq
    dsimp only at hrun
    split at hrun
    · next j hj =>
      obtain ⟨⟨r', v⟩, hsync, hrun⟩ := bind_eq_ok.mp hrun
      obtain ⟨w, hrel, hrun⟩ := bind_eq_ok.mp hrun
      obtain ⟨-, rfl⟩ := cacheRelease_eq_ok.mp hrel
      cases hrun
      have hj : j < bitPerBlock := Nat.lt_of_lt_of_le (findClear_lt hj).1 (Nat.min_le_left _ _)
      rw [div_bitPerBlock hj, Nat.add_sub_cancel_left]
      refine ⟨Nat.le_refl k, ?_⟩
      show getCache b (setCache _ Block.unlock v.blocks) = getCache b (setCache _ Block.unlock _)
      rw [getCache_setCache_of_ne (f := Block.unlock) (fun _ => rfl) hk,
        getCache_setCache_of_ne (f := Block.unlock) (fun _ => rfl) hk, getCache_sync_of_ne hk hsync]
      exact getCache_setCache_of_ne (f := Block.setData _) (fun _ => rfl) hk _
    · obtain ⟨v, hrel, hrun⟩ := bind_eq_ok.mp hrun
      obtain ⟨-, rfl⟩ := cacheRelease_eq_ok.mp hrel
      obtain ⟨hlt, hget⟩ := ih (fun i hi => by
        rw [Nat.add_assoc k 1 i, Nat.add_comm 1 i]
        exact hne (i + 1) (Nat.succ_lt_succ hi)) hrun
      refine ⟨Nat.le_of_succ_le hlt, ?_⟩
      rw [hget, show x / bitPerBlock + 1 - k = x / bitPerBlock + 1 - (k + 1) + 1 by omega,
        List.range'_succ, List.foldl_cons]
      rfl

/-- What `cache_alloc` leaves of the copies of blocks outside the bitmap. -/
theorem getCache_alloc {ctx r : Option OpContext}
    (hne : ∀ y < sb.numBlocks.toNat, bitmapBlock sb y ≠ b)
    (hrun : cacheAlloc sb ctx s = .ok (x, r, t)) :
    getCache b t.blocks = getCache b ((searchBlocks sb x).foldl Cache.touch s).blocks := by
  refine (getCache_allocFrom (fun i hi => ?_) hrun).2
  have hblock := hne (i * bitPerBlock) (by unfold bitPerBlock blockSize at *; omega)
  rw [bitmapBlock, Nat.mul_div_cancel i (by decide)] at hblock
  rwa [Nat.zero_add]

/-- The search stays in the bitmap. -/
theorem not_mem_searchBlocks (hne : ∀ y < sb.numBlocks.toNat, bitmapBlock sb y ≠ b)
    (hx : x < sb.numBlocks.toNat) : b ∉ searchBlocks sb x := by
  intro hmem
  obtain ⟨i, hi, rfl⟩ := List.mem_range'.mp hmem
  have hle : i * bitPerBlock ≤ x := by
    unfold bitPerBlock blockSize at *
    omega
  apply hne (i * bitPerBlock) (Nat.lt_of_le_of_lt hle hx)
  rw [bitmapBlock, Nat.mul_div_cancel i (by decide), Nat.one_mul]

end Search

/-! ## The copy of a block in the cache

`CopyAt Q b` is a property of whatever copy of block `b` is in the cache. These lemmas say that the
calls on other blocks keep it. -/

namespace CopyAt

variable {Q : Block → Prop} {b x : Nat} {s t : Cache}

/-- Acquiring, changing, syncing and releasing another block. -/
theorem flip (h : CopyAt Q b s) (hrep : s.Rep) {ctx r : Option OpContext} {bm j : Nat} {was : Bool}
    {f : BlockData → Nat → BlockData} (hbm : bm ≠ b) (hflip : Flipped ctx bm j was f s r t) :
    CopyAt Q b t := by
  obtain ⟨blk, u, v, hacq, -, hsync, hrel⟩ := hflip.run
  obtain ⟨-, rfl⟩ := cacheRelease_eq_ok.mp hrel
  have hu := h.acquire_of_ne hrep hbm hacq
  have hset := hu.setBlock (x := bm) (f := Block.setData (f blk.data j)) (fun _ => rfl)
    fun heq => absurd heq hbm
  exact (hset.sync (fun heq => absurd heq hbm) hsync).setBlock (f := Block.unlock) (fun _ => rfl)
    fun heq => absurd heq hbm

/-- Another block is acquired and released. -/
theorem touch (h : CopyAt Q b s) (hrep : s.Rep) (hx : x ≠ b) : CopyAt Q b (s.touch x) := by
  have hload := h.loadBlock (x := x) fun heq => absurd heq hx
  have hlock := hload.setBlock (x := x) (f := Block.lock) (fun _ => rfl) fun heq => absurd heq hx
  refine (hlock.evict ?_).setBlock (f := Block.unlock) (fun _ => rfl) fun heq => absurd heq hx
  exact ((hrep.loadBlock x).lock x).nodup

/-- Any number of other blocks. -/
theorem foldl_touch (h : CopyAt Q b s) (hrep : s.Rep) {l : List Nat} (hl : b ∉ l) :
    CopyAt Q b (l.foldl Cache.touch s) := by
  induction l generalizing s with
  | nil => exact h
  | cons x l ih =>
    rw [List.mem_cons, not_or] at hl
    exact ih (h.touch hrep (Ne.symm hl.1)) (hrep.touch x) hl.2

/-- `cache_alloc` acquires bitmap blocks. -/
theorem alloc {sb : SuperBlock} {ctx r : Option OpContext} (h : CopyAt Q b s) (hrep : s.Rep)
    (hne : ∀ y < sb.numBlocks.toNat, bitmapBlock sb y ≠ b)
    (hrun : cacheAlloc sb ctx s = .ok (x, r, t)) : CopyAt Q b t := by
  intro blk hblk
  rw [getCache_alloc hne hrun] at hblk
  refine h.foldl_touch hrep ?_ blk hblk
  exact not_mem_searchBlocks hne (cacheAlloc_eq_ok hrun).1

end CopyAt

/-! ## All zero, in the cache and on the device

Both places are needed: the copy is what `cache_acquire` returns and what a commit writes, the
device is what is read when there is no copy. -/

/-- Block `b` is all zero, on the device and in its copy in the cache if there is one. -/
structure Cache.ZeroAt (s : Cache) (b : Nat) : Prop where
  disk : s.device.disk b = .zero
  copy : CopyAt (fun blk => blk.data = .zero) b s

namespace Cache.ZeroAt

variable {sb : SuperBlock} {s t : Sys} {b x : Nat}

/-- A write to the device, of zeros if it is to this block. -/
theorem deviceWrite {s : Cache} (h : s.ZeroAt b) {d : BlockData} (hd : x = b → d = .zero) :
    (s.deviceWrite x d).ZeroAt b := by
  refine ⟨?_, h.copy⟩
  rw [deviceWrite_device, Device.disk_write]
  by_cases hx : x = b
  · rw [hx, Function.update_self, hd hx]
  · rw [Function.update_of_ne (Ne.symm hx)]
    exact h.disk

/-- A sync without a context writes the copy, which is all zero. -/
theorem syncNull (h : s.cache.ZeroAt b) (hstep : s.step sb (.sync none x) = .ok t) :
    t.cache.ZeroAt b := by
  obtain ⟨⟨blk, hblk⟩, rfl⟩ := step_sync_null.mp hstep
  refine h.deviceWrite fun hx => ?_
  subst hx
  rw [Cache.dataOf_of_getCache hblk]
  exact h.copy blk hblk

/-- A commit installs the copy of a logged block, which is all zero, and leaves the other blocks
outside of the log as they are. -/
theorem endOp (h : s.cache.ZeroAt b) (htidy : s.Tidy sb) (hlog : 0 < sb.numLogBlocks.toNat)
    (hb : ¬ logArea sb b) {c : Nat} (hstep : s.step sb (.endOp c) = .ok t) : t.cache.ZeroAt b := by
  obtain ⟨ctx, -, ⟨-, rfl⟩ | ⟨-, rfl⟩⟩ := step_endOp_cases htidy.rep htidy.fits hlog hstep
  · constructor
    · rw [htidy.fits.disk_committed hlog hb]
      split
      · next hmem =>
        obtain ⟨blk, hblk⟩ := htidy.rep.getCache_entries hmem
        rw [Cache.dataOf_of_getCache hblk]
        exact h.copy blk hblk
      · exact h.disk
    · exact h.copy.unpinAll (fun _ hzero => hzero) rfl
  · exact ⟨h.disk, h.copy⟩

/-- Only a change of the block itself makes it something else. Logged or not, what a reader finds of
it is zero until then. -/
theorem step (h : s.cache.ZeroAt b) (htidy : s.Tidy sb)
    (hacc : s.counters.Accounting sb.numLogBlocks.toNat) (hb : ¬ logArea sb b) {a : Action}
    (ha : a.Simple) (hchange : ∀ c d, a ≠ .change c b d) (hstep : s.step sb a = .ok t) :
    t.cache.ZeroAt b := by
  cases a with
  | acquire x =>
    obtain ⟨blk, cache, hacq, rfl⟩ := step_acquire.mp hstep
    have hdev : cache.device = s.cache.device := by
      obtain ⟨-, -, -, -, rfl⟩ := unsafeCacheAcquire_eq_ok.mp hacq
      simp
    exact ⟨by rw [hdev]; exact h.disk,
      h.copy.acquire htidy.rep (fun _ _ => h.disk) (fun _ _ hzero => hzero) hacq⟩
  | change c x d =>
    obtain ⟨-, rfl⟩ := step_change.mp hstep
    have hx : x ≠ b := by
      rintro rfl
      exact hchange c d rfl
    exact ⟨h.disk, h.copy.setBlock (f := Block.setData d) (fun _ => rfl) fun heq => absurd heq hx⟩
  | sync c x =>
    cases c with
    | none => exact h.syncNull hstep
    | some c =>
      obtain ⟨ctx, ctx', cache, -, hsync, rfl⟩ := step_sync.mp hstep
      have hdev : cache.device = s.cache.device := by
        obtain ⟨-, ⟨-, -, -, rfl⟩ | ⟨-, -, -, rfl⟩⟩ := unsafeCacheSync_ctx.mp hsync <;> rfl
      exact ⟨by rw [hdev]; exact h.disk, h.copy.sync (fun _ _ hzero => hzero) hsync⟩
  | release x =>
    obtain ⟨-, rfl⟩ := step_release.mp hstep
    exact ⟨h.disk, h.copy.setBlock (f := Block.unlock) (fun _ => rfl) fun _ _ hzero => hzero⟩
  | beginOp c =>
    obtain ⟨-, rfl⟩ := step_beginOp.mp hstep
    exact ⟨h.disk, h.copy⟩
  | endOp c => exact h.endOp htidy (log_pos_of_endOp hacc hstep) hb hstep
  | alloc c => exact ha.elim
  | free c x => exact ha.elim
  | zero x =>
    cases step_zero.mp hstep
    exact h.deviceWrite fun _ => rfl

end Cache.ZeroAt

/-! ## Runs -/

/-- Callers that leave the log area to the log, and use the cache as `Legal` says. It makes no
condition on when changes are synced. -/
def Sys.Uses (sb : SuperBlock) (s : Sys) : Action → Prop
  | .alloc c => s.Legal (.alloc c) ∧
    ∀ b ∈ s.allocChoice sb c, ¬ logArea sb b ∧ ¬ logArea sb (bitmapBlock sb b)
  | .free c b => s.Legal (.free c b) ∧ ¬ logArea sb (bitmapBlock sb b)
  | .zero _ => False
  | a => s.OutsideLog sb a

instance (sb : SuperBlock) (s : Sys) (a : Action) : Decidable (s.Uses sb a) := by
  induction a using Action.casesOn <;> dsimp only [Sys.Uses] <;> infer_instance

/-- These rules contain those for the single calls. -/
theorem Sys.Uses.legal {sb : SuperBlock} {s : Sys} {a : Action} (h : s.Uses sb a) : s.Legal a := by
  cases a with
  | alloc c => exact h.1
  | free c b => exact h.1
  | sync c b => exact h.1
  | zero b => trivial
  | _ => exact h

/-- The action changes block `b`. `cache_free` changes the bitmap block of the block it frees. -/
def Action.Changes (sb : SuperBlock) (b : Nat) : Action → Prop
  | .change _ x _ => x = b
  | .free _ x => bitmapBlock sb x = b
  | _ => False

/-- The action acquires block `b`, by name or as the bitmap block it needs. -/
def Action.Acquires (sb : SuperBlock) (b : Nat) : Action → Prop
  | .acquire x => x = b
  | .free _ x => bitmapBlock sb x = b
  | _ => False

/-- Block `b` is all zero, and the cache is in order. The accounting is there for the bound on the
log. -/
structure Sys.ZeroInv (sb : SuperBlock) (b : Nat) (s : Sys) : Prop extends s.Tidy sb where
  accounting : s.counters.Accounting sb.numLogBlocks.toNat
  zero : s.cache.ZeroAt b

section Runs

variable {sb : SuperBlock} {s t : Sys} {b : Nat}

/-- `cache_alloc` returns a block of the disk. -/
theorem allocChoice_lt {c x : Nat} (h : s.allocChoice sb c = some x) : x < sb.numBlocks.toNat := by
  unfold Sys.allocChoice at h
  split at h
  · cases h
  · split at h
    · next halloc =>
      cases h
      exact (cacheAlloc_eq_ok halloc).1
    · cases h

/-- An invariant of the simple steps holds along a run that changes no block of `S`. The two calls
on the bitmap are replaced by their steps first. -/
theorem Runs.uses {S : Set Nat} {I : Sys → Prop}
    (h : Runs sb (fun u a => u.Uses sb a ∧ ∀ b ∈ S, ¬ a.Changes sb b)
      (fun u => u.cache.header.numBlocks ≤ logCapacity sb) s t)
    (hne : ∀ b ∈ S, ∀ x < sb.numBlocks.toNat, bitmapBlock sb x ≠ b)
    (hs : I s) (hI : ∀ u, I u → u.Tidy sb)
    (hstep : ∀ u v a, a.Simple → I u → u.OutsideLog sb a → (∀ b ∈ S, ∀ c d, a ≠ .change c b d) →
      u.step sb a = .ok v → v.cache.header.numBlocks ≤ logCapacity sb → I v) : I t := by
  refine Runs.expand (P := fun g => g.numBlocks ≤ logCapacity sb)
    (Q := fun u a => u.OutsideLog sb a ∧ ∀ b ∈ S, ∀ c d, a ≠ .change c b d) h hs
    (fun u hu => (hI u hu).rep) (fun u hu => (hI u hu).fits.capacity) (fun u a hok => hok.1.legal)
    (fun u v a ha hu hok hv hcap => hstep u v a ha hu hok.1 hok.2 hv hcap) ?_ ?_ ?_
  · rintro u a ha hu ⟨hop, hleaves⟩
    have hout : u.OutsideLog sb a := by
      cases a <;> first | exact hop | exact ha.elim | exact hop.elim
    refine ⟨hout, ?_⟩
    rintro b hb c d rfl
    exact hleaves b hb rfl
  · rintro u c x v a hu ⟨⟨-, hop⟩, -⟩ hchoice - ha hlegal -
    obtain ⟨hx, hbm⟩ := hop x hchoice
    refine ⟨ha.outsideLog hlegal hbm fun y hy => ?_, ?_⟩
    · cases hy
      exact hx
    · rintro b hb c' d rfl
      exact hne b hb x (allocChoice_lt hchoice) ha.2.symm
  · rintro u c x v a hu ⟨⟨-, hbm⟩, hleaves⟩ - ha hlegal -
    refine ⟨ha.outsideLog hlegal hbm (by simp), ?_⟩
    rintro b hb c' d rfl
    exact hleaves b hb ha.2.symm

/-- Blocks that are not changed stay all zero. -/
theorem Runs.zeroInv (h : Runs sb (fun u a => u.Uses sb a ∧ ¬ a.Changes sb b)
      (fun u => u.cache.header.numBlocks ≤ logCapacity sb) s t)
    (hb : ¬ logArea sb b) (hne : ∀ x < sb.numBlocks.toNat, bitmapBlock sb x ≠ b)
    (hs : s.ZeroInv sb b) : t.ZeroInv sb b := by
  have h' : Runs sb (fun u a => u.Uses sb a ∧ ∀ y ∈ ({b} : Set Nat), ¬ a.Changes sb y)
      (fun u => u.cache.header.numBlocks ≤ logCapacity sb) s t :=
    h.mono (fun u a hok => ⟨hok.1, fun y hy => by rw [hy]; exact hok.2⟩) fun _ hcap => hcap
  apply h'.uses (fun y hy => by rw [hy]; exact hne) hs (fun u hu => hu.toTidy)
  intro u v a ha hu hout hchange hstep hcap
  exact ⟨hu.toTidy.step ha hout hstep hcap,
    (Sys.step_counters hout.legal hstep).accounting hu.accounting,
    hu.zero.step hu.toTidy hu.accounting hb ha (hchange b rfl) hstep⟩

/-- The cache stays in order. -/
theorem Runs.uses_tidy (h : Runs sb (Sys.Uses sb)
      (fun u => u.cache.header.numBlocks ≤ logCapacity sb) s t) (hs : s.Tidy sb) : t.Tidy sb := by
  have h' : Runs sb (fun u a => u.Uses sb a ∧ ∀ y ∈ (∅ : Set Nat), ¬ a.Changes sb y)
      (fun u => u.cache.header.numBlocks ≤ logCapacity sb) s t :=
    h.mono (fun u a hok => ⟨hok, fun y hy => hy.elim⟩) fun _ hcap => hcap
  apply h'.uses (fun y hy => hy.elim) hs (fun u hu => hu)
  exact fun u v a ha hu hout _ hstep hcap => hu.step ha hout hstep hcap

/-- A block that nobody holds is held by nobody until it is acquired. Evicting it does no harm: then
there is no copy to speak of. -/
theorem CopyAt.free_step {a : Action}
    (h : CopyAt (fun blk => blk.acquired = false) b s.cache) (hrep : s.cache.Rep)
    (hne : ∀ x < sb.numBlocks.toNat, bitmapBlock sb x ≠ b) (ha : ¬ a.Acquires sb b)
    (hstep : s.step sb a = .ok t) : CopyAt (fun blk => blk.acquired = false) b t.cache := by
  cases a with
  | acquire x =>
    obtain ⟨blk, cache, hacq, rfl⟩ := step_acquire.mp hstep
    exact h.acquire_of_ne hrep ha hacq
  | change c x d =>
    obtain ⟨-, rfl⟩ := step_change.mp hstep
    exact h.setBlock (f := Block.setData d) (fun _ => rfl) fun _ _ hfree => hfree
  | sync c x =>
    cases c with
    | none =>
      obtain ⟨-, rfl⟩ := step_sync_null.mp hstep
      exact h
    | some c =>
      obtain ⟨ctx, ctx', cache, -, hsync, rfl⟩ := step_sync.mp hstep
      exact h.sync (fun _ _ hfree => hfree) hsync
  | release x =>
    obtain ⟨-, rfl⟩ := step_release.mp hstep
    exact h.setBlock (f := Block.unlock) (fun _ => rfl) fun _ _ _ => rfl
  | beginOp c =>
    obtain ⟨-, rfl⟩ := step_beginOp.mp hstep
    exact h
  | endOp c =>
    obtain ⟨ctx, cache, -, hend, rfl⟩ := step_endOp.mp hstep
    rcases cacheEndOp_eq_ok.mp hend with ⟨-, u, hu, rfl⟩ | ⟨-, rfl⟩
    · obtain ⟨g, dev, heq⟩ := commit_frame sb hrep
      rw [heq] at hu
      cases hu
      exact h.unpinAll (fun _ hfree => hfree) rfl
    · exact h
  | alloc c =>
    obtain ⟨ctx, r, x, cache, -, halloc, rfl⟩ := step_alloc.mp hstep
    exact h.alloc hrep hne halloc
  | free c x =>
    obtain ⟨ctx, r, cache, -, hfree, rfl⟩ := step_free.mp hstep
    exact h.flip hrep ha (cacheFree_eq_ok hfree)
  | zero x =>
    cases step_zero.mp hstep
    exact h

/-- Nobody changes a block that nobody holds: in a run that does not acquire it the block stays
zero. The induction is on the run. -/
theorem Runs.zeroInv_free (h : Runs sb (fun u a => u.Uses sb a ∧ ¬ a.Acquires sb b)
      (fun u => u.cache.header.numBlocks ≤ logCapacity sb) s t)
    (hb : ¬ logArea sb b) (hne : ∀ x < sb.numBlocks.toNat, bitmapBlock sb x ≠ b)
    (hs : s.ZeroInv sb b) (hfree : CopyAt (fun blk => blk.acquired = false) b s.cache) :
    t.ZeroInv sb b := by
  refine (h.invariant (I := fun u => u.ZeroInv sb b ∧
    CopyAt (fun blk => blk.acquired = false) b u.cache) ⟨hs, hfree⟩ ?_).1
  rintro u v a ⟨hu, hfree⟩ ⟨hop, hacq⟩ hstep hcap
  have hchange : ¬ a.Changes sb b := by
    cases a with
    | change c x d =>
      rintro rfl
      obtain ⟨blk, hblk, hheld⟩ := Sys.held_iff.mp hop.legal.2
      rw [hfree blk hblk] at hheld
      cases hheld
    | free c x => exact hacq
    | _ => exact id
  have hrun : Runs sb (fun u a => u.Uses sb a ∧ ¬ a.Changes sb b)
      (fun u => u.cache.header.numBlocks ≤ logCapacity sb) u v :=
    .single ⟨a, ⟨hop, hchange⟩, hstep, hcap⟩
  exact ⟨hrun.zeroInv hb hne hu, hfree.free_step hu.rep hne hacq hstep⟩

end Runs

/-! ## What `cache_alloc` returns

The promise is about two moments: the next acquisition, and any commit as long as the block is not
changed. It is broken by a stale copy in either. -/

/-- What `cache.h` promises of a new block `b`: it is all zero when it is acquired next, and as long
as it is not changed it is all zero on the device after a commit. -/
structure Sys.NewBlock (sb : SuperBlock) (b : Nat) (t : Sys) : Prop where
  acquire : ∀ u, Runs sb (fun v a => v.Uses sb a ∧ ¬ a.Acquires sb b)
      (fun v => v.cache.header.numBlocks ≤ logCapacity sb) t u →
    ∀ blk cache, cacheAcquire b u.cache = .ok (blk, cache) → blk.data = .zero
  commit : ∀ u v c, Runs sb (fun v a => v.Uses sb a ∧ ¬ a.Changes sb b)
      (fun v => v.cache.header.numBlocks ≤ logCapacity sb) t u →
    u.Legal (.endOp c) → u.cache.outstanding = 1 → u.step sb (.endOp c) = .ok v →
    v.cache.device.disk b = .zero

section NewBlock

variable {sb : SuperBlock} {s t : Sys} {b : Nat}

/-- A block that is all zero and that nobody holds. -/
theorem Sys.ZeroInv.newBlock (h : t.ZeroInv sb b)
    (hfree : CopyAt (fun blk => blk.acquired = false) b t.cache) (hb : ¬ logArea sb b)
    (hne : ∀ x < sb.numBlocks.toNat, bitmapBlock sb x ≠ b) : t.NewBlock sb b := by
  constructor
  · intro u hrun blk cache hacq
    have hu := hrun.zeroInv_free hb hne h hfree
    obtain ⟨hget, -⟩ := hu.rep.getCache_acquire hacq
    exact hu.zero.copy.acquire hu.rep (fun _ _ => hu.zero.disk) (fun _ _ hzero => hzero) hacq blk
      hget
  · intro u v c hrun hlegal hlast hstep
    have hu := hrun.zeroInv hb hne h
    exact (hu.zero.endOp hu.toTidy (log_pos_of_endOp hu.accounting hstep) hb hstep).disk

/-- The next `acquire` returns the copy that is in the cache, if nobody holds it. -/
theorem cacheAcquire_of_copy {blk : Block} (hrep : t.cache.Rep)
    (hblk : getCache b t.cache.blocks = some blk) (hfree : blk.acquired = false) :
    ∃ cache, cacheAcquire b t.cache = .ok (blk.lock, cache) := by
  have hlocked : CopyAt (fun blk => blk.locked = false) b t.cache := by
    intro blk' hblk'
    cases hblk.symm.trans hblk'
    rw [← hrep.acquired_eq blk (getCache_eq_some hblk).1]
    exact hfree
  obtain ⟨cache, hacq⟩ := hlocked.exists_acquire
  rw [hblk] at hacq
  exact ⟨cache, hacq⟩

/-- If somebody holds a copy, he may change and release it before it is acquired. So a new block as
it was promised has no copy in anybody's hands. -/
theorem Sys.NewBlock.copy_free (h : t.NewBlock sb b) (hrep : t.cache.Rep)
    (hcap : t.cache.header.numBlocks ≤ logCapacity sb) {c : Nat} (hc : t.IsOpen c) {blk : Block}
    (hblk : getCache b t.cache.blocks = some blk) : blk.acquired = false := by
  by_contra hheld
  have hheld : blk.acquired = true := by simpa using hheld
  let d : BlockData := fun _ => 1
  let u : Sys := { t with
    cache := t.cache.setBlock b (Block.setData d), ghost := t.ghost.change c b }
  let v : Sys := { u with cache := u.cache.setBlock b Block.unlock }
  have hchange : t.step sb (.change c b d) = .ok u := step_change.mpr ⟨⟨blk, hblk⟩, rfl⟩
  have hu : getCache b u.cache.blocks = some (blk.setData d) := by
    show getCache b (setCache b (Block.setData d) t.cache.blocks) = _
    rw [getCache_setCache_self (f := Block.setData d) (fun _ => rfl), hblk]
    rfl
  have hrelease : u.step sb (.release b) = .ok v := step_release.mpr ⟨⟨_, hu⟩, rfl⟩
  have hv : getCache b v.cache.blocks = some (blk.setData d).unlock := by
    show getCache b (setCache b Block.unlock u.cache.blocks) = _
    rw [getCache_setCache_self (f := Block.unlock) (fun _ => rfl), hu]
    rfl
  have hrun : Runs sb (fun v a => v.Uses sb a ∧ ¬ a.Acquires sb b)
      (fun v => v.cache.header.numBlocks ≤ logCapacity sb) t v :=
    .tail (.single ⟨.change c b d, ⟨⟨hc, held_of_getCache hblk hheld⟩, id⟩, hchange, hcap⟩)
      ⟨.release b, ⟨held_of_getCache hu hheld, id⟩, hrelease, hcap⟩
  have hrepv : v.cache.Rep := Sys.rep_step (Sys.rep_step hrep hchange) hrelease
  obtain ⟨cache, hacq⟩ := cacheAcquire_of_copy hrepv hv rfl
  have hzero : d = .zero := h.acquire v hrun _ cache hacq
  exact absurd (congrFun hzero 0) (by decide)

end NewBlock

/-- `cache_alloc` keeps its promise exactly if the copy of the block that is in the cache, and that
the acquisition of the bitmap blocks does not happen to evict, is all zero and held by nobody. -/
theorem alloc_newBlock_iff (sb : SuperBlock) (d : Disk) {s t : Sys}
    (h : Runs sb (Sys.Uses sb) (fun u => u.cache.header.numBlocks ≤ logCapacity sb)
      (Sys.init sb d) s)
    {c b : Nat} (huses : s.Uses sb (.alloc c)) (hchoice : s.allocChoice sb c = some b)
    (hstep : s.step sb (.alloc c) = .ok t)
    (hcap : t.cache.header.numBlocks ≤ logCapacity sb)
    (hdata : ∀ x < sb.numBlocks.toNat, bitmapBlock sb x ≠ b) :
    t.NewBlock sb b ↔
      CopyAt (fun blk => blk.data = .zero ∧ blk.acquired = false) b
        ((searchBlocks sb b).foldl Cache.touch s.cache) := by
  have hrun : Runs sb (Sys.Uses sb) (fun u => u.cache.header.numBlocks ≤ logCapacity sb)
      (Sys.init sb d) t := h.tail ⟨.alloc c, huses, hstep, hcap⟩
  have ht : t.Tidy sb := hrun.uses_tidy (Sys.init_tidy sb d)
  have hacc := hrun.accounting (fun _ _ hu => hu.legal) (Sys.init_accounting sb d _)
  obtain ⟨hb, -⟩ := huses.2 b hchoice
  obtain ⟨ctx, r, b', cache, hc, halloc, hcache⟩ := step_alloc.mp hstep
  obtain rfl : b = b' := by simpa [Sys.allocChoice, hc, halloc] using hchoice.symm
  have hsame : getCache b t.cache.blocks =
      getCache b ((searchBlocks sb b).foldl Cache.touch s.cache).blocks := by
    rw [hcache]
    exact getCache_alloc hdata halloc
  have hdisk : t.cache.device.disk b = .zero := by
    obtain ⟨-, u, v, -, -, rfl⟩ := cacheAlloc_eq_ok halloc
    rw [hcache, Cache.deviceWrite_device, Device.disk_write, Function.update_self]
  have hopen : t.IsOpen c := by
    rw [hcache, Sys.IsOpen, map_fst_setOp]
    exact huses.1
  constructor
  · intro hnew blk hblk
    rw [← hsame] at hblk
    have hfree := hnew.copy_free ht.rep hcap hopen hblk
    obtain ⟨cache', hacq⟩ := cacheAcquire_of_copy ht.rep hblk hfree
    have hzero : blk.lock.data = .zero := hnew.acquire t .refl _ cache' hacq
    exact ⟨hzero, hfree⟩
  · intro hcopy
    have hcopy : CopyAt (fun blk => blk.data = .zero ∧ blk.acquired = false) b t.cache :=
      fun blk hblk => hcopy blk (hsame ▸ hblk)
    have hzero : t.ZeroInv sb b := ⟨ht, hacc, hdisk, fun blk hblk => (hcopy blk hblk).1⟩
    exact hzero.newBlock (fun blk hblk => (hcopy blk hblk).2) hb hdata

/-- Every block is in use; block `30` holds a file. -/
def usedDisk : Disk := fun b =>
  if b = 110 then fun _ => 255 else if b = 30 then fun _ => 5 else .zero

theorem usedDisk_data : ∀ x < (smallSuperBlock 20).numBlocks.toNat,
    bitmapBlock (smallSuperBlock 20) x ≠ 30 := by
  intro x _
  show 110 + x / bitPerBlock ≠ 30
  exact Nat.ne_of_gt (Nat.lt_of_lt_of_le (by decide) (Nat.le_add_right 110 _))

/-- A block that was never in the cache is freed and allocated. -/
def freeUncached : List Action := [.beginOp 0, .free 0 30]

/-- Nothing of the block is in the cache, so the new block is as promised. -/
theorem alloc_newBlock_iff_uncached : ∃ s t,
    (Sys.init (smallSuperBlock 20) usedDisk).exec (smallSuperBlock 20) freeUncached = .ok s ∧
    s.step (smallSuperBlock 20) (.alloc 0) = .ok t ∧ t.NewBlock (smallSuperBlock 20) 30 := by
  obtain ⟨s, hexec, hruns⟩ := Runs.of_admits (smallSuperBlock 20) (Sys.Uses (smallSuperBlock 20))
    (fun u => u.cache.header.numBlocks ≤ logCapacity (smallSuperBlock 20))
    (Sys.init (smallSuperBlock 20) usedDisk) freeUncached (by decide +kernel)
  have hfacts : (((Sys.init (smallSuperBlock 20) usedDisk).exec (smallSuperBlock 20)
      freeUncached).toOption.map fun s => decide (s.Uses (smallSuperBlock 20) (.alloc 0) ∧
        s.allocChoice (smallSuperBlock 20) 0 = some 30 ∧
        (getCache 30 s.cache.blocks).isNone = true ∧
        (s.step (smallSuperBlock 20) (.alloc 0)).isOk = true ∧
        ∀ t ∈ (s.step (smallSuperBlock 20) (.alloc 0)).toOption,
          t.cache.header.numBlocks ≤ logCapacity (smallSuperBlock 20))) = some true := by
    decide +kernel
  rw [hexec] at hfacts
  obtain ⟨huses, hchoice, hnone, hok, hcap⟩ := of_decide_eq_true (Option.some.inj hfacts)
  obtain ⟨t, hstep⟩ := exists_ok hok
  have hcap : t.cache.header.numBlocks ≤ logCapacity (smallSuperBlock 20) :=
    hcap t (by rw [hstep]; rfl)
  refine ⟨s, t, hexec, hstep,
    (alloc_newBlock_iff _ _ hruns huses hchoice hstep hcap usedDisk_data).mpr ?_⟩
  have hcopy : CopyAt (fun _ => False) 30 s.cache := fun blk hblk => by
    rw [Option.isNone_iff_eq_none.mp hnone] at hblk
    cases hblk
  intro blk hblk
  exact (hcopy.foldl_touch (hruns.uses_tidy (Sys.init_tidy _ _)).rep
    (not_mem_searchBlocks usedDisk_data (allocChoice_lt hchoice)) blk hblk).elim

/-- The file in block `30` is logged, and then the block is freed. -/
def logAndFree : List Action :=
  [.beginOp 0, .acquire 30, .sync (some 0) 30, .release 30, .free 0 30]

/-- The block that `cache_alloc` returns still holds the file, in the cache at once and on the
device after the commit. -/
theorem alloc_returns_stale_block : ∃ s t u blk cache,
    Runs (smallSuperBlock 20) (Sys.Uses (smallSuperBlock 20))
      (fun u => u.cache.header.numBlocks ≤ logCapacity (smallSuperBlock 20))
      (Sys.init (smallSuperBlock 20) usedDisk) s ∧
    s.allocChoice (smallSuperBlock 20) 0 = some 30 ∧
    s.step (smallSuperBlock 20) (.alloc 0) = .ok t ∧
    (cacheAcquire 30 t.cache = .ok (blk, cache) ∧ blk.data 0 = 5) ∧
    (t.step (smallSuperBlock 20) (.endOp 0) = .ok u ∧ u.cache.device.disk 30 0 = 5) := by
  obtain ⟨s, hexec, hruns⟩ := Runs.of_admits (smallSuperBlock 20) (Sys.Uses (smallSuperBlock 20))
    (fun u => u.cache.header.numBlocks ≤ logCapacity (smallSuperBlock 20))
    (Sys.init (smallSuperBlock 20) usedDisk) logAndFree (by decide +kernel)
  have hfacts : (((Sys.init (smallSuperBlock 20) usedDisk).exec (smallSuperBlock 20)
      logAndFree).toOption.bind fun s =>
        (s.step (smallSuperBlock 20) (.alloc 0)).toOption.bind fun t =>
        (cacheAcquire 30 t.cache).toOption.bind fun p =>
        (t.step (smallSuperBlock 20) (.endOp 0)).toOption.map fun u =>
          (s.allocChoice (smallSuperBlock 20) 0, p.1.data 0, u.cache.device.disk 30 0)) =
      some (some 30, 5, 5) := by
    decide +kernel
  rw [hexec] at hfacts
  obtain ⟨_, hs, hfacts⟩ := Option.bind_eq_some_iff.mp hfacts
  cases hs
  obtain ⟨t, hstep, hfacts⟩ := Option.bind_eq_some_iff.mp hfacts
  obtain ⟨p, hacq, hfacts⟩ := Option.bind_eq_some_iff.mp hfacts
  obtain ⟨u, hend, hfacts⟩ := Option.map_eq_some_iff.mp hfacts
  simp only [Prod.mk.injEq] at hfacts
  exact ⟨s, t, u, p.1, p.2, hruns, hfacts.1, toOption_eq_some.mp hstep,
    ⟨toOption_eq_some.mp hacq, hfacts.2.1⟩, toOption_eq_some.mp hend, hfacts.2.2⟩

end KernelAarch64.Fs
