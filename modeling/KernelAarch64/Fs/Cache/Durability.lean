import KernelAarch64.Fs.Cache.Allocation
import KernelAarch64.Fs.Cache.Coherence

/-!
# What `cache_end_op` guarantees

`cache_end_op` commits only when the operation that ends is the last one outstanding. In that case
every block the operation synced is on the disk for good, up to later syncs. An operation that ends
while another one is outstanding leaves its blocks in the log in memory: a power cut loses them
although `cache_end_op` has returned.

The main result is `endOp_durable`. Its proof follows the run through its three parts, with an
invariant for each: `Sys.Durable` before the `sync`, `Sys.Logging` between the `sync` and the end of
the operation, and `Sys.Persisted` after it. `SyncedSince` ties the content of the block to the
history of syncs, so that a later `sync` of the same block is allowed to replace it, and nothing
else is. `endOp_loses_sync` is the run with a second operation outstanding.
-/

namespace KernelAarch64.Fs

open KernelAarch64.Lib

/-- The calls of atomic operations that sync their changes in time. -/
def Sys.Orderly (sb : SuperBlock) (s : Sys) (a : Action) : Prop :=
  s.Operates sb a ∧ s.ReleasesClean a ∧ s.EndsClean a

instance (sb : SuperBlock) (s : Sys) (a : Action) : Decidable (s.Orderly sb a) := by
  unfold Sys.Orderly
  infer_instance

/-- The action does not hand out block `b`, which `cache_alloc` would fill with zeros. -/
def Sys.Spares (sb : SuperBlock) (b : Nat) (s : Sys) : Action → Prop
  | .alloc c => s.allocChoice sb c ≠ some b
  | _ => True

instance (sb : SuperBlock) (b : Nat) (s : Sys) (a : Action) : Decidable (s.Spares sb b a) := by
  induction a using Action.casesOn <;> dsimp only [Sys.Spares] <;> infer_instance

/-! ## Runs of such operations

`Runs.durable` replaces `cache_alloc` and `cache_free` by their steps once, for all the invariants
below. -/

/-- The invariant of crash atomicity, with the accounting of the log and the discipline of the
callers, who sync what they change before they give it back. -/
structure Sys.Durable (sb : SuperBlock) (s : Sys) : Prop extends s.Safe sb where
  accounting : s.counters.Accounting sb.numLogBlocks.toNat
  dirty : s.DirtyHeld
  openDirty : s.OpenDirty

/-- What the calls of an orderly run consist of, as far as block `b` is concerned. With `none` in
place of a block the last condition is empty. -/
structure Sys.DurableStep (sb : SuperBlock) (b : Option Nat) (s : Sys) (a : Action) : Prop where
  outside : s.OutsideLog sb a
  release : s.ReleasesClean a
  ends : s.EndsClean a
  indirect : ∀ x, a ≠ .sync none x
  spares : ∀ x ∈ b, a ≠ .zero x

/-- Every simple action keeps it. -/
theorem Sys.Durable.step {sb : SuperBlock} {s t : Sys} {b : Option Nat} {a : Action}
    (h : s.Durable sb) (ha : a.Simple) (hok : s.DurableStep sb b a) (hstep : s.step sb a = .ok t)
    (hcap : t.cache.header.numBlocks ≤ logCapacity sb) : t.Durable sb :=
  ⟨h.toSafe.step ha hok.outside hstep hcap,
    (Sys.step_counters hok.outside.legal hstep).accounting h.accounting,
    h.dirty.step h.rep ha hok.outside.legal hok.release hstep,
    h.openDirty.step h.dirty ha hok.outside.legal hok.ends hstep⟩

/-- The actions inside `cache_alloc` and `cache_free` keep to the rules as well. -/
theorem BitmapAction.durableStep {sb : SuperBlock} {c bm : Nat} {z b : Option Nat} {s : Sys}
    {a : Action} (ha : BitmapAction c bm z a) (hlegal : s.Legal a) (hclean : s.ReleasesClean a)
    (hbm : ¬ logArea sb bm) (hz : ∀ x ∈ z, ¬ logArea sb x) (hb : ∀ x ∈ b, z ≠ some x) :
    s.DurableStep sb b a := by
  refine ⟨ha.outsideLog hlegal hbm hz, hclean, ?_, ?_, ?_⟩
  · cases a <;> first | exact ha.elim | trivial
  · rintro x rfl
    cases ha.1
  · rintro x hx rfl
    exact hb x hx ha

/-- An invariant of the simple steps holds along an orderly run that spares block `b`. The two calls
on the bitmap are replaced by their steps first. -/
theorem Runs.durable {sb : SuperBlock} {s t : Sys} {b : Option Nat} {I : Sys → Prop}
    (h : Runs sb (fun u a => u.Orderly sb a ∧ ∀ x ∈ b, u.Spares sb x a)
      (fun u => u.cache.header.numBlocks ≤ logCapacity sb) s t)
    (hs : I s) (hI : ∀ u, I u → u.Durable sb)
    (hstep : ∀ u v a, a.Simple → I u → u.DurableStep sb b a → u.step sb a = .ok v →
      v.cache.header.numBlocks ≤ logCapacity sb → I v) : I t := by
  refine Runs.expand (P := fun g => g.numBlocks ≤ logCapacity sb) h hs (fun u hu => (hI u hu).rep)
    (fun u hu => (hI u hu).fits.capacity) (fun u a ha => ha.1.1.legal) hstep ?_ ?_ ?_
  · rintro u a ha hu ⟨⟨hop, hrel, hend⟩, -⟩
    have hop : u.OutsideLog sb a ∧ ¬ a.IsDirect := by
      cases a <;> first | exact hop | exact ha.elim
    refine ⟨hop.1, hrel, hend, ?_, ?_⟩
    · rintro x rfl
      exact hop.2 trivial
    · rintro x - rfl
      exact hop.2 trivial
  · rintro u c x v a hu ⟨⟨⟨-, hop⟩, -, -⟩, hspare⟩ hchoice - ha hlegal hclean
    obtain ⟨hx, hbm⟩ := hop x hchoice
    refine ha.durableStep hlegal (hclean (hI u hu).dirty) hbm ?_ ?_
    · rintro y hy
      cases hy
      exact hx
    · intro y hy heq
      exact hspare y hy (hchoice.trans heq)
  · rintro u c x v a hu ⟨⟨⟨-, hbm⟩, -, -⟩, -⟩ - ha hlegal hclean
    exact ha.durableStep hlegal (hclean (hI u hu).dirty) hbm (by simp) (by simp)

/-! ## The content of one block

A `sync` records the content the block has then. The disk may have the content of this sync or of a
later one, but of none before it. -/

/-- The last `sync` of block `b` is not among the first `n` syncs. -/
def Sys.SyncedSince (s : Sys) (n b : Nat) : Prop :=
  ∃ r ∈ s.ghost.hist.drop n, r.block = b ∧ s.synced b = r.data

/-- What a simple action adds to the syncs: nothing, or one at the end, with the content that the
block has in the cache. -/
theorem Sys.Durable.step_hist {sb : SuperBlock} {s t : Sys} {a : Action} (h : s.Durable sb)
    (ha : a.Simple) (hstep : s.step sb a = .ok t) :
    (t.ghost.hist = s.ghost.hist ∧ t.synced = s.synced) ∨
    ∃ c x, t.ghost.hist = s.ghost.hist ++ [⟨c, x, s.cache.dataOf x⟩] ∧
      t.synced = Function.update s.synced x (s.cache.dataOf x) := by
  have hinit := h.toTidy.initial_eq h.accounting ha hstep
  have hsame : t.ghost.hist = s.ghost.hist →
      (t.ghost.hist = s.ghost.hist ∧ t.synced = s.synced) :=
    fun hhist => ⟨hhist, Sys.synced_eq hinit hhist⟩
  cases a with
  | acquire b =>
    obtain ⟨blk, cache, hacq, rfl⟩ := step_acquire.mp hstep
    exact .inl (hsame rfl)
  | change c b d =>
    obtain ⟨-, rfl⟩ := step_change.mp hstep
    exact .inl (hsame rfl)
  | sync c b =>
    have hhist : t.ghost.hist = (s.ghost.sync c b (s.cache.dataOf b)).hist := by
      cases c with
      | none =>
        obtain ⟨-, rfl⟩ := step_sync_null.mp hstep
        rfl
      | some c =>
        obtain ⟨ctx, ctx', cache, hc, hsync, rfl⟩ := step_sync.mp hstep
        rfl
    exact .inr ⟨c, b, hhist, Sys.synced_sync hinit hhist⟩
  | release b =>
    obtain ⟨-, rfl⟩ := step_release.mp hstep
    exact .inl (hsame rfl)
  | beginOp c =>
    obtain ⟨-, rfl⟩ := step_beginOp.mp hstep
    exact .inl (hsame rfl)
  | endOp c =>
    obtain ⟨ctx, cache, -, -, rfl⟩ := step_endOp.mp hstep
    refine .inl (hsame ?_)
    dsimp only
    split <;> rfl
  | alloc c => exact ha.elim
  | free c b => exact ha.elim
  | zero b =>
    cases step_zero.mp hstep
    exact .inl (hsame rfl)

/-- A new sync may be of the block, and then it is the last one. -/
theorem Sys.Durable.syncedSince {sb : SuperBlock} {s t : Sys} {n b : Nat} {a : Action}
    (h : s.Durable sb) (hsince : s.SyncedSince n b) (ha : a.Simple)
    (hstep : s.step sb a = .ok t) :
    t.SyncedSince n b ∧ s.ghost.hist.drop n ⊆ t.ghost.hist.drop n := by
  obtain ⟨r, hr, hrb, hdata⟩ := hsince
  have hn : n ≤ s.ghost.hist.length := by
    by_contra hn
    rw [List.drop_of_length_le (by omega)] at hr
    cases hr
  rcases h.step_hist ha hstep with ⟨hhist, hsynced⟩ | ⟨c, x, hhist, hsynced⟩
  · rw [hhist]
    exact ⟨⟨r, by rwa [hhist], hrb, by rw [hsynced, hdata]⟩, List.Subset.refl _⟩
  · rw [hhist, List.drop_append_of_le_length hn]
    refine ⟨?_, List.subset_append_left _ _⟩
    unfold Sys.SyncedSince
    rw [hhist, List.drop_append_of_le_length hn, hsynced]
    by_cases hx : b = x
    · subst hx
      exact ⟨_, List.mem_append_right _ (List.mem_singleton_self _), rfl, Function.update_self ..⟩
    · exact ⟨r, List.mem_append_left _ hr, hrb, by rw [Function.update_of_ne hx, hdata]⟩

/-! ## Until the operation ends

The block is in the header, and stays there until the operations outstanding have all ended. -/

/-- Context `c` has synced block `b`, after the first `n` syncs, and not ended yet. As long as it is
open the block stays in the log. -/
structure Sys.Logging (sb : SuperBlock) (n c b : Nat) (s : Sys) : Prop extends s.Durable sb where
  coh : s.CohAt b
  since : s.SyncedSince n b
  begun : c ∈ s.begun
  /-- No commit takes the block out of the log while the context is open. -/
  logged : s.IsOpen c → b ∈ s.cache.header.entries

/-- Only `cache_end_op` takes blocks out of the log. One case for each action; a `sync` can only add
an entry. -/
theorem Sys.entries_subset {sb : SuperBlock} {s t : Sys} {a : Action} (ha : a.Simple)
    (hend : ∀ c, a ≠ .endOp c) (hstep : s.step sb a = .ok t) :
    s.cache.header.entries ⊆ t.cache.header.entries := by
  cases a with
  | acquire b =>
    obtain ⟨blk, cache, hacq, rfl⟩ := step_acquire.mp hstep
    rw [unsafeCacheAcquire_header hacq]
    exact List.Subset.refl _
  | change c b d =>
    obtain ⟨-, rfl⟩ := step_change.mp hstep
    exact List.Subset.refl _
  | sync c b =>
    cases c with
    | none =>
      obtain ⟨-, rfl⟩ := step_sync_null.mp hstep
      exact List.Subset.refl _
    | some c =>
      obtain ⟨ctx, ctx', cache, hc, hsync, rfl⟩ := step_sync.mp hstep
      obtain ⟨-, ⟨-, -, -, rfl⟩ | ⟨-, -, -, rfl⟩⟩ := unsafeCacheSync_ctx.mp hsync
      · exact List.Subset.refl _
      · simp
  | release b =>
    obtain ⟨-, rfl⟩ := step_release.mp hstep
    exact List.Subset.refl _
  | beginOp c =>
    obtain ⟨-, rfl⟩ := step_beginOp.mp hstep
    exact List.Subset.refl _
  | endOp c => exact absurd rfl (hend c)
  | alloc c => exact ha.elim
  | free c b => exact ha.elim
  | zero b =>
    cases step_zero.mp hstep
    exact List.Subset.refl _

theorem Sys.Durable.log_pos {sb : SuperBlock} {s : Sys} (h : s.Durable sb) :
    0 < sb.numLogBlocks.toNat := by
  have := h.hdr.2
  omega

/-- The block stays logged, because nothing is committed as long as the context is open. -/
theorem Sys.Logging.step {sb : SuperBlock} {n c b : Nat} {s t : Sys} {a : Action}
    (h : s.Logging sb n c b) (hb : ¬ logArea sb b) (ha : a.Simple)
    (hok : s.DurableStep sb (some b) a) (hstep : s.step sb a = .ok t)
    (hcap : t.cache.header.numBlocks ≤ logCapacity sb) : t.Logging sb n c b := by
  have hcounters := Sys.step_counters hok.outside.legal hstep
  refine ⟨h.toDurable.step ha hok hstep hcap,
    h.coh.step h.toTidy h.accounting hb ha (hok.spares b rfl) hstep,
    (h.toDurable.syncedSince h.since ha hstep).1, hcounters.begun_subset h.begun, ?_⟩
  intro hopen
  have hmem := h.logged (hcounters.isOpen h.begun hopen)
  by_cases hend : ∃ c', a = .endOp c'
  · obtain ⟨c', rfl⟩ := hend
    obtain ⟨ctx, hc', ⟨hlast, rfl⟩ | ⟨-, rfl⟩⟩ :=
      step_endOp_cases h.rep h.fits h.log_pos hstep
    · -- The last operation ends, so no context is open any more.
      have hops := ops_of_last h.accounting hc' hlast
      simp [Sys.IsOpen, hops, eraseOp] at hopen
    · exact hmem
  · exact Sys.entries_subset ha (fun c' hc' => hend ⟨c', hc'⟩) hstep hmem

/-- A `sync` logs the block, with its content of now. From here on the block is pinned, and stays
logged until the commit. -/
theorem Sys.Durable.logging {sb : SuperBlock} {c b : Nat} {s t : Sys} (h : s.Durable sb)
    (hok : s.DurableStep sb none (.sync (some c) b))
    (hstep : s.step sb (.sync (some c) b) = .ok t)
    (hcap : t.cache.header.numBlocks ≤ logCapacity sb) :
    t.Logging sb s.ghost.hist.length c b := by
  have ha : (Action.sync (some c) b).Simple := trivial
  have hinit := h.toTidy.initial_eq h.accounting ha hstep
  refine ⟨h.step ha hok hstep hcap, Sys.CohAt.sync (fun hne => absurd rfl hne) hstep, ?_,
    ?_, ?_⟩
  · obtain ⟨ctx, ctx', cache, hc, hsync, rfl⟩ := step_sync.mp hstep
    refine ⟨⟨some c, b, s.cache.dataOf b⟩, ?_, rfl, ?_⟩
    · show _ ∈ (s.ghost.hist ++ [_]).drop s.ghost.hist.length
      rw [List.drop_left]
      exact List.mem_singleton_self _
    · rw [Sys.synced_sync (s := s) (c := some c) (x := b) hinit rfl, Function.update_self]
  · exact (Sys.step_counters hok.outside.legal hstep).begun_subset
      (h.accounting.begun c hok.outside.legal.1)
  · obtain ⟨ctx, ctx', cache, hc, hsync, rfl⟩ := step_sync.mp hstep
    obtain ⟨-, ⟨hmem, -, -, rfl⟩ | ⟨-, -, -, rfl⟩⟩ := unsafeCacheSync_ctx.mp hsync
    · exact fun _ => hmem
    · intro _
      simp

/-! ## After the operation has ended

The events up to the commit are on the device and can not be cut off any more. What comes after them
is looked at event by event. -/

/-- Whatever the cut, as long as the events `es₀` are before it, block `b` has the content of one
of the syncs after the first `n`. -/
structure Sys.Persisted (sb : SuperBlock) (n b : Nat) (es₀ : List Event) (s : Sys) : Prop
    extends s.Durable sb where
  coh : s.CohAt b
  since : s.SyncedSince n b
  events : es₀ <+: s.ghost.events
  content : ∀ es, es₀ <+: es → es <+: s.ghost.events →
    ∃ r ∈ s.ghost.hist.drop n, r.block = b ∧ overlay s.cache.device.initial es b = r.data

/-- A new event that leaves the block alone, or gives it the content of one of the syncs. What a cut
shows of the block is then still one of these contents. -/
theorem Sys.Persisted.append {sb : SuperBlock} {n b : Nat} {es₀ : List Event} {s t : Sys}
    {e : Event} (h : s.Persisted sb n b es₀) (ht : t.Durable sb) (hcoh : t.CohAt b)
    (hsince : t.SyncedSince n b) (hhist : s.ghost.hist.drop n ⊆ t.ghost.hist.drop n)
    (hinit : t.cache.device.initial = s.cache.device.initial)
    (hevents : t.ghost.events = s.ghost.events ++ [e])
    (hlast : applyWrites (overlay s.cache.device.initial s.ghost.events) e.writes b =
        overlay s.cache.device.initial s.ghost.events b ∨
      applyWrites (overlay s.cache.device.initial s.ghost.events) e.writes b = t.synced b) :
    t.Persisted sb n b es₀ := by
  refine ⟨ht, hcoh, hsince, hevents ▸ h.events.trans (List.prefix_append _ _), ?_⟩
  intro es hes₀ hes
  rw [hinit]
  have hold : es <+: s.ghost.events → ∃ r ∈ t.ghost.hist.drop n, r.block = b ∧
      overlay s.cache.device.initial es b = r.data := by
    intro hes
    obtain ⟨r, hr, hrb, hdata⟩ := h.content es hes₀ hes
    exact ⟨r, hhist hr, hrb, hdata⟩
  rw [hevents] at hes
  rcases List.prefix_concat_iff.mp hes with rfl | hes
  · have hover : overlay s.cache.device.initial (s.ghost.events ++ [e]) b =
        applyWrites (overlay s.cache.device.initial s.ghost.events) e.writes b := by
      rw [overlay_append, overlay, List.flatMap_cons, List.flatMap_nil, List.append_nil]
    rw [hover]
    rcases hlast with heq | heq
    · rw [heq]
      obtain ⟨r, hr, hrb, hdata⟩ := h.content _ h.events (List.prefix_refl _)
      exact ⟨r, hhist hr, hrb, hdata⟩
    · obtain ⟨r, hr, hrb, hdata⟩ := hsince
      exact ⟨r, hr, hrb, heq.trans hdata⟩
  · exact hold hes

/-- An action without an event. -/
theorem Sys.Persisted.of_events {sb : SuperBlock} {n b : Nat} {es₀ : List Event} {s t : Sys}
    (h : s.Persisted sb n b es₀) (ht : t.Durable sb) (hcoh : t.CohAt b)
    (hsince : t.SyncedSince n b) (hhist : s.ghost.hist.drop n ⊆ t.ghost.hist.drop n)
    (hinit : t.cache.device.initial = s.cache.device.initial)
    (hevents : t.ghost.events = s.ghost.events) : t.Persisted sb n b es₀ := by
  refine ⟨ht, hcoh, hsince, hevents ▸ h.events, ?_⟩
  intro es hes₀ hes
  rw [hinit]
  obtain ⟨r, hr, hrb, hdata⟩ := h.content es hes₀ (hevents ▸ hes)
  exact ⟨r, hhist hr, hrb, hdata⟩

/-- A commit leaves the last synced content. -/
theorem Sys.Durable.commit_content {sb : SuperBlock} {b c : Nat} {ctx : OpContext} {s : Sys}
    (h : s.Durable sb) (hcoh : s.CohAt b) (hc : findOp c s.ops = some ctx)
    (hlast : s.cache.outstanding = 1) (hends : s.EndsClean (.endOp c))
    (hmem : b ∈ s.cache.header.entries) (d : Disk) :
    applyWrites d (s.cache.header.entries.map fun x => (x, s.cache.dataOf x)) b = s.synced b := by
  obtain ⟨blk, hblk⟩ := h.rep.getCache_entries hmem
  rw [applyWrites_map, if_pos hmem, Cache.dataOf_of_getCache hblk]
  exact hcoh.cached blk hblk (h.openDirty.clean h.dirty h.accounting hc hlast hends b)

/-- Only a commit and a write past the log have events. The commit writes the last synced content of
the block, or does not have it in its group; the write past the log is to another block. -/
theorem Sys.Persisted.step {sb : SuperBlock} {n b : Nat} {es₀ : List Event} {s t : Sys}
    {a : Action} (h : s.Persisted sb n b es₀) (hb : ¬ logArea sb b) (ha : a.Simple)
    (hok : s.DurableStep sb (some b) a) (hstep : s.step sb a = .ok t)
    (hcap : t.cache.header.numBlocks ≤ logCapacity sb) : t.Persisted sb n b es₀ := by
  have ht := h.toDurable.step ha hok hstep hcap
  have hcoh := h.coh.step h.toTidy h.accounting hb ha (hok.spares b rfl) hstep
  obtain ⟨hsince, hhist⟩ := h.toDurable.syncedSince h.since ha hstep
  have hinit := h.toTidy.initial_eq h.accounting ha hstep
  -- Most actions add no event.
  have hsame := h.of_events ht hcoh hsince hhist hinit
  cases a with
  | acquire x =>
    obtain ⟨blk, cache, hacq, rfl⟩ := step_acquire.mp hstep
    exact hsame rfl
  | change c x d =>
    obtain ⟨-, rfl⟩ := step_change.mp hstep
    exact hsame rfl
  | sync c x =>
    cases c with
    | none => exact absurd rfl (hok.indirect x)
    | some c =>
      obtain ⟨ctx, ctx', cache, hc, hsync, rfl⟩ := step_sync.mp hstep
      exact hsame rfl
  | release x =>
    obtain ⟨-, rfl⟩ := step_release.mp hstep
    exact hsame rfl
  | beginOp c =>
    obtain ⟨-, rfl⟩ := step_beginOp.mp hstep
    exact hsame rfl
  | endOp c =>
    obtain ⟨ctx, hc, ⟨hlast, rfl⟩ | ⟨-, rfl⟩⟩ := step_endOp_cases h.rep h.fits h.log_pos hstep
    · apply h.append (e := .group _ _ _) ht hcoh hsince hhist hinit rfl
      -- A logged block goes home with the content of its last `sync`.
      by_cases hmem : b ∈ s.cache.header.entries
      · right
        rw [Sys.synced_eq (s := s) hinit rfl]
        exact h.toDurable.commit_content h.coh hc hlast hok.ends hmem _
      · left
        simp only [Event.writes]
        rw [applyWrites_map, if_neg hmem]
    · exact hsame rfl
  | alloc c => exact ha.elim
  | free c x => exact ha.elim
  | zero x =>
    cases step_zero.mp hstep
    refine h.append (e := .direct _ _ _) ht hcoh hsince hhist hinit rfl (.inl ?_)
    have hx : b ≠ x := by
      rintro rfl
      exact hok.spares b rfl rfl
    simp [Event.writes, Function.update_of_ne hx]

/-- The `cache_end_op` that commits: the header goes to the device with the block in it, so that
from here on a crash finds the content. -/
theorem Sys.Logging.persisted {sb : SuperBlock} {n c b : Nat} {s t : Sys}
    (h : s.Logging sb n c b) (hb : ¬ logArea sb b)
    (hok : s.DurableStep sb (some b) (.endOp c)) (hlast : s.cache.outstanding = 1)
    (hstep : s.step sb (.endOp c) = .ok t)
    (hcap : t.cache.header.numBlocks ≤ logCapacity sb) :
    t.Persisted sb n b t.ghost.events := by
  have ha : (Action.endOp c).Simple := trivial
  have ht := h.step hb ha hok hstep hcap
  have hinit := h.toTidy.initial_eq h.accounting ha hstep
  refine ⟨ht.toDurable, ht.coh, ht.since, List.prefix_refl _, ?_⟩
  intro es hes₀ hes
  obtain rfl : es = t.ghost.events := hes.eq_of_length_le hes₀.length_le
  have hmem := h.logged hok.outside.legal
  obtain ⟨ctx, hc, ⟨-, rfl⟩ | ⟨hmore, rfl⟩⟩ := step_endOp_cases h.rep h.fits h.log_pos hstep
  · obtain ⟨r, hr, hrb, hdata⟩ := ht.since
    refine ⟨r, hr, hrb, ?_⟩
    rw [← hdata, Sys.synced_eq (s := s) hinit rfl, hinit]
    show overlay _ (s.ghost.events ++ [_]) b = _
    rw [overlay_append, overlay, List.flatMap_cons, List.flatMap_nil, List.append_nil]
    exact h.toDurable.commit_content h.coh hc hlast hok.ends hmem _
  · exact absurd hlast hmore

/-! ## Durability

The three invariants in a row. -/

/-- A cut after `k` device writes, recovered, shows block `b` with the content of one of the syncs
after the first `n`. -/
def Sys.Persists (sb : SuperBlock) (s : Sys) (n b k : Nat) : Prop :=
  ∀ d', Reboots sb (s.cache.device.diskAt k) d' →
    ∃ r ∈ s.ghost.hist.drop n, r.block = b ∧ (initBcache sb d').device.disk b = r.data

/-- A power cut at or after the current write leaves events that begin with those known. -/
theorem Sys.Persisted.persists {sb : SuperBlock} {n b k : Nat} {s t : Sys}
    (h : s.Persisted sb n b t.ghost.events) (ht : t.Safe sb) (hk : t.nextPos ≤ k)
    (hb : ¬ logArea sb b) : s.Persists sb n b k := by
  intro d' hd'
  obtain ⟨hdisk, -⟩ := ((h.cut k).reboots hd').initBcache
  rw [hdisk b hb]
  refine h.content _ ?_ (filter_pos_isPrefix h.sorted k)
  -- All events before the end of the operation are before the cut.
  obtain ⟨es, hes⟩ := h.events
  rw [Sys.eventsAt, ← hes, List.filter_append, ← Sys.eventsAt, ht.eventsAt_nextPos hk]
  exact List.prefix_append _ _

/-- A call that is neither `cache_alloc` nor `cache_free` is one step. -/
theorem Sys.Orderly.durableStep {sb : SuperBlock} {s : Sys} {a : Action} (h : s.Orderly sb a)
    (ha : a.Plain) (b : Option Nat) : s.DurableStep sb b a := by
  obtain ⟨hop, hrel, hend⟩ := h
  have hop : s.OutsideLog sb a ∧ ¬ a.IsDirect := by
    cases a <;> first | exact hop | exact ha.elim
  refine ⟨hop.1, hrel, hend, ?_, ?_⟩
  · rintro x rfl
    exact hop.2 trivial
  · rintro x - rfl
    exact hop.2 trivial

/-- Durability. If the operation `c` that synced block `b` is the last one outstanding when it
ends, then whatever happens afterwards, a power cut after `cache_end_op` has returned leaves the
block with the content it had at that sync or at a later one. -/
theorem endOp_durable (sb : SuperBlock) (d : Disk) {s₀ s₁ s t u : Sys} {c b : Nat}
    (h₀ : Runs sb (Sys.Orderly sb) (fun v => v.cache.header.numBlocks ≤ logCapacity sb)
      (Sys.init sb d) s₀)
    (hsync : s₀.Orderly sb (.sync (some c) b)) (hs₁ : s₀.step sb (.sync (some c) b) = .ok s₁)
    (hcap₁ : s₁.cache.header.numBlocks ≤ logCapacity sb)
    (h₁ : Runs sb (fun v a => v.Orderly sb a ∧ v.Spares sb b a)
      (fun v => v.cache.header.numBlocks ≤ logCapacity sb) s₁ s)
    (hend : s.Orderly sb (.endOp c)) (hlast : s.cache.outstanding = 1)
    (ht : s.step sb (.endOp c) = .ok t)
    (h₂ : Runs sb (fun v a => v.Orderly sb a ∧ v.Spares sb b a)
      (fun v => v.cache.header.numBlocks ≤ logCapacity sb) t u)
    {k : Nat} (hk : t.nextPos ≤ k) : u.Persists sb s₀.ghost.hist.length b k := by
  have hb : ¬ logArea sb b := hsync.1.1.2
  have hacc := h₀.accounting (fun _ _ ha => ha.1.legal) (Sys.init_accounting sb d _)
  have hlog : 0 < sb.numLogBlocks.toNat := by
    have hlen : 0 < s₀.ops.length := by
      obtain ⟨p, hp, -⟩ := List.mem_map.mp hsync.1.legal.1
      exact List.length_pos_of_mem hp
    have hout : s₀.counters.outstanding = s₀.ops.length := hacc.outstanding
    have hres := hacc.reserved
    unfold opMaxNumBlocks at hres
    omega
  have hinit : (Sys.init sb d).Durable sb :=
    ⟨Sys.init_safe sb d hlog, Sys.init_accounting sb d _, (Sys.init_coherent sb d).dirty,
      fun b c hb => by cases hb⟩
  have hspares : ∀ {v w : Sys}, Runs sb (fun v a => v.Orderly sb a ∧ v.Spares sb b a)
      (fun v => v.cache.header.numBlocks ≤ logCapacity sb) v w →
      Runs sb (fun v a => v.Orderly sb a ∧ ∀ x ∈ some b, v.Spares sb x a)
        (fun v => v.cache.header.numBlocks ≤ logCapacity sb) v w := by
    intro v w hvw
    refine hvw.mono (fun v a hva => ⟨hva.1, ?_⟩) fun _ h => h
    rintro x hx
    cases hx
    exact hva.2
  -- The three parts of the run: up to the sync, up to the end of the operation, and on.
  have hs₀ : s₀.Durable sb := by
    refine Runs.durable (b := none) (h₀.mono (fun v a hva => ⟨hva, by simp⟩) fun _ h => h) hinit
      (fun v hv => hv) ?_
    exact fun v w a ha hv hok hstep hcap => hv.step ha hok hstep hcap
  have hs₁' := hs₀.logging (hsync.durableStep trivial none) hs₁ hcap₁
  have hs : s.Logging sb s₀.ghost.hist.length c b :=
    Runs.durable (hspares h₁) hs₁' (fun v hv => hv.toDurable)
      fun v w a ha hv hok hstep hcap => hv.step hb ha hok hstep hcap
  have hcapt : t.cache.header.numBlocks ≤ logCapacity sb := (hs.toTidy.endOp ht).fits.capacity
  have hts := hs.persisted hb (hend.durableStep trivial (some b)) hlast ht hcapt
  have hu : u.Persisted sb s₀.ghost.hist.length b t.ghost.events :=
    Runs.durable (hspares h₂) hts (fun v hv => hv.toDurable)
      fun v w a ha hv hok hstep hcap => hv.step hb ha hok hstep hcap
  exact hu.persists hts.toSafe hk hb

/-- An operation that changes block `200`, up to its `sync`. -/
def changeBlock : List Action := [.beginOp 0, .acquire 200, .change 0 200 (fun _ => 7)]

/-- One operation alone: the block is on the disk when `cache_end_op` returns. -/
theorem endOp_durable_single : ∃ s₀ s₁ s t,
    (Sys.init (smallSuperBlock 20) fun _ => .zero).exec (smallSuperBlock 20) changeBlock =
      .ok s₀ ∧
    s₀.step (smallSuperBlock 20) (.sync (some 0) 200) = .ok s₁ ∧
    s₁.step (smallSuperBlock 20) (.release 200) = .ok s ∧
    s.step (smallSuperBlock 20) (.endOp 0) = .ok t ∧
    t.Persists (smallSuperBlock 20) s₀.ghost.hist.length 200 t.nextPos := by
  have hadmits : (Sys.init (smallSuperBlock 20) fun _ => .zero).admits (smallSuperBlock 20)
      (fun v a => v.Orderly (smallSuperBlock 20) a ∧ v.Spares (smallSuperBlock 20) 200 a)
      (fun v => v.cache.header.numBlocks ≤ logCapacity (smallSuperBlock 20))
      (changeBlock ++ [.sync (some 0) 200, .release 200, .endOp 0]) = true := by
    decide +kernel
  have hlast : (((Sys.init (smallSuperBlock 20) fun _ => .zero).exec (smallSuperBlock 20)
      (changeBlock ++ [.sync (some 0) 200, .release 200])).toOption.map
      fun s => s.cache.outstanding) = some 1 := by
    decide +kernel
  obtain ⟨s₀, hs₀, h₀, hrest⟩ := Sys.admits_append hadmits
  obtain ⟨s₁, hsync, hs₁, hcap₁, hrest⟩ := Sys.admits_cons hrest
  obtain ⟨s, hrel, hs, hcap, hrest⟩ := Sys.admits_cons hrest
  obtain ⟨t, hend, ht, -, -⟩ := Sys.admits_cons hrest
  have hexec : (Sys.init (smallSuperBlock 20) fun _ => .zero).exec (smallSuperBlock 20)
      (changeBlock ++ [.sync (some 0) 200, .release 200]) = .ok s := by
    rw [Sys.exec_append, hs₀, ok_bind, Sys.exec, hs₁, ok_bind, Sys.exec, hs, ok_bind, Sys.exec]
  rw [hexec] at hlast
  refine ⟨s₀, s₁, s, t, hs₀, hs₁, hs, ht, ?_⟩
  exact endOp_durable _ _ (h₀.mono (fun _ _ h => h.1) fun _ h => h) hsync.1 hs₁ hcap₁
    (.single ⟨_, hrel, hs, hcap⟩) hend.1 (Option.some.inj hlast) ht .refl (Nat.le_refl _)

/-- The same with a second operation outstanding. -/
def changeBlockOfTwo : List Action :=
  [.beginOp 1, .beginOp 0, .acquire 200, .change 0 200 (fun _ => 7)]

/-- `cache_end_op` returns, and a power cut right after it loses the block. -/
theorem endOp_loses_sync : ∃ s₀ t,
    (Sys.init (smallSuperBlock 20) fun _ => .zero).exec (smallSuperBlock 20) changeBlockOfTwo =
      .ok s₀ ∧
    s₀.exec (smallSuperBlock 20) [.sync (some 0) 200, .release 200, .endOp 0] = .ok t ∧
    Runs (smallSuperBlock 20) (Sys.Orderly (smallSuperBlock 20))
      (fun v => v.cache.header.numBlocks ≤ logCapacity (smallSuperBlock 20))
      (Sys.init (smallSuperBlock 20) fun _ => .zero) t ∧
    ¬ t.Persists (smallSuperBlock 20) s₀.ghost.hist.length 200 t.nextPos := by
  have hadmits : (Sys.init (smallSuperBlock 20) fun _ => .zero).admits (smallSuperBlock 20)
      (Sys.Orderly (smallSuperBlock 20))
      (fun v => v.cache.header.numBlocks ≤ logCapacity (smallSuperBlock 20))
      (changeBlockOfTwo ++ ([.sync (some 0) 200, .release 200, .endOp 0] ++ [])) = true := by
    decide +kernel
  obtain ⟨s₀, hs₀, h₀, hrest⟩ := Sys.admits_append hadmits
  obtain ⟨t, ht, h₁, -⟩ := Sys.admits_append hrest
  refine ⟨s₀, t, hs₀, ht, h₀.trans h₁, fun hpersists => ?_⟩
  -- The recovered content, and the contents of all syncs, by their first byte.
  have hcheck : (((Sys.init (smallSuperBlock 20) fun _ => .zero).exec (smallSuperBlock 20)
      (changeBlockOfTwo ++ [.sync (some 0) 200, .release 200, .endOp 0])).toOption.map fun t =>
        ((initBcache (smallSuperBlock 20) (t.cache.device.diskAt t.nextPos)).device.disk 200 0,
          t.ghost.hist.map fun r => r.data 0)) = some (0, [7]) := by
    decide +kernel
  rw [Sys.exec_append, hs₀, ok_bind, ht] at hcheck
  simp only [Except.toOption, Option.map_some, Option.some.injEq, Prod.mk.injEq] at hcheck
  obtain ⟨hzero, hseven⟩ := hcheck
  obtain ⟨r, hr, -, hdata⟩ := hpersists _ .refl
  have hmem : r.data 0 ∈ t.ghost.hist.map fun r => r.data 0 :=
    List.mem_map_of_mem (List.mem_of_mem_drop hr)
  rw [hseven, ← hdata, hzero] at hmem
  exact absurd hmem (by decide)

end KernelAarch64.Fs
