import KernelAarch64.Fs.Cache.Accounting

/-!
# What a reader finds in a block

Only what is logged reaches the disk with a commit (`Cache.toCommit`); what else is in the cache
may be dropped at any time, so the content of a block (`Cache.view`) may go back to what the disk
holds. For a block that is clean the two agree, and they stay the same until somebody changes the
block (`Touches`).

`Touches W` sums up any number of calls by the set `W` of the blocks they change or log. It is
reflexive and transitive, so that a whole function of `inode.c` touches the union of what its calls
touch, and everything outside of `W` keeps both its content for readers, up to going back to the
disk, and its content for the next commit. `CleanAt` is what makes going back harmless.
-/

namespace KernelAarch64.Fs

open KernelAarch64.Lib

namespace Cache

/-- What a reader finds in block `b`: the cached copy, or what the device holds. -/
def view (s : Cache) (b : Nat) : BlockData :=
  ((getCache b s.blocks).map Block.data).getD (s.device.disk b)

/-- What a commit would leave in block `b` on the disk. -/
def toCommit (s : Cache) (b : Nat) : BlockData :=
  if b ∈ s.header.entries then s.dataOf b else s.device.disk b

/-- The cached copy of block `b` is what a commit would leave on the disk. -/
def CleanAt (s : Cache) (b : Nat) : Prop :=
  ∀ blk, getCache b s.blocks = some blk → blk.data = s.toCommit b

variable {s s' : Cache} {b x : Nat} {blk : Block}

theorem view_of_getCache (h : getCache b s.blocks = some blk) : s.view b = blk.data := by
  simp [view, h]

theorem view_of_not_cached (h : getCache b s.blocks = none) : s.view b = s.device.disk b := by
  simp [view, h]

/-- A logged block is committed with its cached copy. -/
theorem toCommit_of_mem (h : b ∈ s.header.entries) : s.toCommit b = s.dataOf b := if_pos h

/-- A commit leaves the other blocks as they are on the disk. -/
theorem toCommit_of_not_mem (h : b ∉ s.header.entries) : s.toCommit b = s.device.disk b := if_neg h

/-- A clean block reads as what a commit would leave. -/
theorem CleanAt.view (h : s.CleanAt b) (hrep : s.Rep) : s.view b = s.toCommit b := by
  cases hb : getCache b s.blocks with
  | some blk => rw [view_of_getCache hb, h blk hb]
  | none =>
    have hlog : b ∉ s.header.entries := by
      intro hmem
      obtain ⟨a, ha⟩ := hrep.getCache_entries hmem
      rw [hb] at ha
      cases ha
    rw [view_of_not_cached hb, toCommit_of_not_mem hlog]

/-! ## What the calls change

Reading touches nothing, even where a block is read in and another one is dropped for it. -/

/-- From `s` to `s'` only blocks of `W` were changed or logged, and nothing was written to the
device. The other blocks may have been read in and dropped. -/
structure Touches (W : Set Nat) (s s' : Cache) : Prop where
  device : s'.device = s.device
  entries : ∀ b, b ∉ W → (b ∈ s'.header.entries ↔ b ∈ s.header.entries)
  cached : ∀ b, b ∉ W → ∀ blk, getCache b s'.blocks = some blk →
    blk.data = s.view b ∨ blk.data = s.device.disk b
  logged : ∀ b ∈ s.header.entries, b ∉ W → s'.dataOf b = s.dataOf b

namespace Touches

variable {W : Set Nat}

theorem refl (s : Cache) : Touches W s s :=
  ⟨rfl, fun _ _ => Iff.rfl, fun _ _ _ hb => .inl (view_of_getCache hb).symm, fun _ _ _ => rfl⟩

theorem mono {V : Set Nat} (h : Touches W s s') (hsub : W ⊆ V) : Touches V s s' :=
  ⟨h.device, fun b hb => h.entries b fun hW => hb (hsub hW),
    fun b hb => h.cached b fun hW => hb (hsub hW),
    fun b hlog hb => h.logged b hlog fun hW => hb (hsub hW)⟩

theorem view (h : Touches W s s') (hb : b ∉ W) :
    s'.view b = s.view b ∨ s'.view b = s.device.disk b := by
  cases hget : getCache b s'.blocks with
  | some blk =>
    rw [view_of_getCache hget]
    exact h.cached b hb blk hget
  | none =>
    rw [view_of_not_cached hget, h.device]
    exact .inr rfl

theorem trans {u : Cache} (h₁ : Touches W s s') (h₂ : Touches W s' u) : Touches W s u := by
  refine ⟨h₂.device.trans h₁.device, fun b hb => (h₂.entries b hb).trans (h₁.entries b hb), ?_, ?_⟩
  · intro b hb blk hget
    rcases h₂.cached b hb blk hget with heq | heq
    · rw [heq]
      exact h₁.view hb
    · rw [heq, h₁.device]
      exact .inr rfl
  · intro b hlog hb
    rw [h₂.logged b ((h₁.entries b hb).mpr hlog) hb, h₁.logged b hlog hb]

theorem toCommit (h : Touches W s s') (hb : b ∉ W) : s'.toCommit b = s.toCommit b := by
  unfold Cache.toCommit
  simp only [h.entries b hb, h.device]
  split
  · next hlog => exact h.logged b hlog hb
  · rfl

theorem cleanAt (h : Touches W s s') (hrep : s.Rep) (hb : b ∉ W) (hclean : s.CleanAt b) :
    s'.CleanAt b := by
  intro blk hget
  rw [h.toCommit hb]
  by_cases hlog : b ∈ s.header.entries
  · rw [toCommit_of_mem hlog, ← h.logged b hlog hb, dataOf_of_getCache hget]
  · rcases h.cached b hb blk hget with heq | heq
    · rw [heq, hclean.view hrep]
    · rw [heq, toCommit_of_not_mem hlog]

end Touches

/-- An acquisition touches no block: each of them reads as before or, when its copy is evicted, as
it is on the device. -/
theorem touches_acquire (hrep : s.Rep) (h : unsafeCacheAcquire x s = .ok (blk, s')) :
    Touches ∅ s s' := by
  obtain ⟨a, ha, -, rfl, rfl⟩ := unsafeCacheAcquire_eq_ok.mp h
  refine ⟨by simp, fun _ _ => by simp, ?_, ?_⟩
  · intro b _
    have hcopy : CopyAt (fun y => y.data = s.view b ∨ y.data = s.device.disk b) b s :=
      fun y hy => .inl (view_of_getCache hy).symm
    exact hcopy.acquire hrep (fun _ _ => .inr rfl) (fun _ _ hy => hy) h
  · intro b hb _
    obtain ⟨z, hz⟩ := hrep.getCache_entries hb
    have hpin : z.pinned = true := (hrep.pinned_iff z (getCache_eq_some hz).1).mpr (by
      rw [(getCache_eq_some hz).2]
      exact hb)
    by_cases hbx : b = x
    · subst hbx
      have hget := (hrep.getCache_acquire h).1
      rw [getCache_loadBlock_self, hz] at ha
      cases ha
      rw [dataOf_of_getCache hget, dataOf_of_getCache hz]
      rfl
    · rw [dataOf_of_getCache (hrep.getCache_acquire_of_ne h hbx hz (.inr hpin)),
        dataOf_of_getCache hz]

/-- An assignment to a block that keeps its content. -/
theorem touches_setBlock {f : Block → Block} (hno : ∀ blk, (f blk).blockNo = blk.blockNo)
    (hdata : ∀ blk, (f blk).data = blk.data) : Touches ∅ s (s.setBlock x f) := by
  refine ⟨rfl, fun _ _ => Iff.rfl, ?_, fun b _ _ => dataOf_setBlock hno hdata s x b⟩
  intro b _
  have hcopy : CopyAt (fun y => y.data = s.view b ∨ y.data = s.device.disk b) b s :=
    fun y hy => .inl (view_of_getCache hy).symm
  apply hcopy.setBlock hno
  intro _ y hy
  rwa [hdata]

theorem touches_release (h : cacheRelease x s = .ok s') : Touches ∅ s s' := by
  obtain ⟨-, rfl⟩ := cacheRelease_eq_ok.mp h
  exact touches_setBlock (f := Block.unlock) (fun _ => rfl) (fun _ => rfl)

theorem touches_scanned (hrep : s.Rep) (h : Scanned s s') : Touches ∅ s s' := by
  induction h with
  | refl => exact .refl s
  | tail hscan hlast ih =>
    obtain ⟨x, blk, u, -, hacq, hrel⟩ := hlast
    exact (ih.trans (touches_acquire (Scanned.rep hscan hrep) hacq)).trans (touches_release hrel)

theorem touches_store (d : BlockData) : Touches {x} s (s.setBlock x (Block.setData d)) := by
  have hget : ∀ b, b ∉ ({x} : Set Nat) →
      getCache b (s.setBlock x (Block.setData d)).blocks = getCache b s.blocks := fun b hb =>
    getCache_setCache_of_ne (f := Block.setData d) (fun _ => rfl) hb s.blocks
  refine ⟨rfl, fun _ _ => Iff.rfl, ?_, ?_⟩
  · intro b hb y hy
    rw [hget b hb] at hy
    exact .inl (view_of_getCache hy).symm
  · intro b _ hb
    rw [dataOf, hget b hb]
    rfl

theorem touches_sync {c : OpContext} {r : Option OpContext}
    (h : unsafeCacheSync (some c) x s = .ok (r, s')) : Touches {x} s s' := by
  have hpin : ∀ u : Cache, Touches {x} u (u.setBlock x Block.pin) := fun u =>
    (touches_setBlock (f := Block.pin) (fun _ => rfl) (fun _ => rfl)).mono (Set.empty_subset _)
  obtain ⟨-, ⟨-, -, -, rfl⟩ | ⟨-, -, -, rfl⟩⟩ := unsafeCacheSync_ctx.mp h
  · exact hpin s
  · have hpush : Touches {x} s { s with header := s.header.push x } := by
      refine ⟨rfl, ?_, fun b _ blk hb => .inl (view_of_getCache hb).symm, fun _ _ _ => rfl⟩
      intro b hb
      have hbx : b ≠ x := hb
      simp [hbx]
    exact hpush.trans (hpin _)

theorem deviceWrite_view {d : BlockData} (hbx : b ≠ x) : (s.deviceWrite x d).view b = s.view b := by
  simp [view, Function.update_of_ne hbx]

theorem deviceWrite_toCommit {d : BlockData} (hbx : b ≠ x) :
    (s.deviceWrite x d).toCommit b = s.toCommit b := by
  simp only [toCommit, deviceWrite_header, deviceWrite_device, Device.disk_write,
    Function.update_of_ne hbx]
  rfl

theorem CleanAt.deviceWrite {d : BlockData} (hbx : b ≠ x) (h : s.CleanAt b) :
    (s.deviceWrite x d).CleanAt b := by
  intro blk hb
  rw [deviceWrite_toCommit hbx]
  exact h blk hb

/-- A change to a block that is synced before the block is released. Between two such calls the
cache is in order again, and nobody has the block. -/
theorem Rep.update {c : OpContext} {r : Option OpContext} {u v t : Cache} {d : BlockData}
    (h : s.Rep) (hacq : unsafeCacheAcquire x s = .ok (blk, u))
    (hsync : unsafeCacheSync (some c) x (u.setBlock x (Block.setData d)) = .ok (r, v))
    (hrel : cacheRelease x v = .ok t) :
    t.Rep ∧ Touches {x} s t ∧ t.CleanAt x ∧ t.toCommit x = d := by
  have hu := h.acquire hacq
  have htouch : Touches {x} s t :=
    (((touches_acquire h hacq).mono (Set.empty_subset _)).trans (touches_store d)).trans
      ((touches_sync hsync).trans ((touches_release hrel).mono (Set.empty_subset _)))
  have hrep : t.Rep := ((hu.setData x d).sync hsync).release hrel
  obtain ⟨hget, -⟩ := h.getCache_acquire hacq
  have hlogged : x ∈ (v.setBlock x Block.unlock).header.entries := by
    obtain ⟨-, ⟨hx', -, -, rfl⟩ | ⟨-, -, -, rfl⟩⟩ := unsafeCacheSync_ctx.mp hsync
    · exact hx'
    · simp
  have hdata : v.dataOf x = d := by
    obtain ⟨-, ⟨-, -, -, rfl⟩ | ⟨-, -, -, rfl⟩⟩ := unsafeCacheSync_ctx.mp hsync
    all_goals
      rw [dataOf_setBlock (f := Block.pin) (fun _ => rfl) (fun _ => rfl)]
      exact dataOf_setData hget d
  obtain ⟨-, rfl⟩ := cacheRelease_eq_ok.mp hrel
  have hcommit : (v.setBlock x Block.unlock).toCommit x = d := by
    rw [toCommit_of_mem hlogged, dataOf_setBlock (f := Block.unlock) (fun _ => rfl) (fun _ => rfl),
      hdata]
  refine ⟨hrep, htouch, ?_, hcommit⟩
  intro a ha
  rw [hcommit, ← hdata, ← dataOf_setBlock (f := Block.unlock) (fun _ => rfl) (fun _ => rfl),
    dataOf_of_getCache ha]

end Cache

end KernelAarch64.Fs
