import KernelAarch64.Fs.Cache.System

/-!
# `cache_alloc` and `cache_free` as sequences of the other actions

Both functions hold the lock of the cache throughout, but what they do to the state is what other
calls do too: they acquire and release bitmap blocks, change and sync one of them, and
`cache_alloc` writes a zero block past the log. `Runs.expand` replaces the two in a run by these
steps, so that an invariant has to be checked for the simple actions only.

There are two steps to it. `cacheAlloc_eq_ok` and `cacheFree_eq_ok` say what the two functions did
when they returned: some bitmap blocks were `Scanned`, one of them was `Flipped`, and in
`cache_alloc` a block was zeroed. `Scanned.runs` and `Flipped.runs` then replay this as actions of
the system, and `alloc_runs` and `free_runs` put the pieces together.
-/

namespace KernelAarch64.Fs

open KernelAarch64.Lib

/-! ## What the two calls do when they return -/

/-- Some bitmap blocks were acquired and released again, which is what the search of `cache_alloc`
does with the blocks that are full. -/
def Scanned : Cache → Cache → Prop :=
  Relation.ReflTransGen fun s t => ∃ x blk u, x < 2 ^ 64 ∧
    unsafeCacheAcquire x s = .ok (blk, u) ∧ cacheRelease x u = .ok t

/-- Bit `j` of bitmap block `bm`, which was `was`, was flipped by `f` and the block synced under
`ctx`. -/
structure Flipped (ctx : Option OpContext) (bm j : Nat) (was : Bool)
    (f : BlockData → Nat → BlockData) (s : Cache) (r : Option OpContext) (t : Cache) : Prop where
  run : ∃ blk u v, unsafeCacheAcquire bm s = .ok (blk, u) ∧ blk.data.bit j = was ∧
    unsafeCacheSync ctx bm (u.setBlock bm (Block.setData (f blk.data j))) = .ok (r, v) ∧
    cacheRelease bm v = .ok t

/-- The search stays in the block and finds a clear bit. -/
theorem findClear_lt {d : BlockData} {n j : Nat} (h : findClear d n = some j) :
    j < n ∧ d.bit j = false := by
  refine ⟨by simpa using List.mem_of_find?_eq_some h, ?_⟩
  simpa using List.find?_some h

/-- The induction is over the bitmap blocks that are left to look at. A block without a clear bit is
acquired and released, and the search goes on. -/
theorem cacheAllocFrom_eq_ok {sb : SuperBlock} {ctx r : Option OpContext} {n k b : Nat}
    {s t : Cache} (hn : k + n ≤ 2 ^ 32) (h : cacheAllocFrom sb ctx n k s = .ok (b, r, t)) :
    b < sb.numBlocks.toNat ∧ ∃ u v, Scanned s u ∧
      Flipped ctx (bitmapBlock sb b) (b % bitPerBlock) false BlockData.setBit u r v ∧
      t = v.deviceWrite b .zero := by
  induction n generalizing k s with
  | zero => simp [cacheAllocFrom] at h
  | succ n ih =>
    obtain ⟨⟨blk, u⟩, hacq, h⟩ := bind_eq_ok.mp h
    dsimp only at h
    split at h
    · next j hj =>
      obtain ⟨⟨r', v⟩, hsync, h⟩ := bind_eq_ok.mp h
      obtain ⟨w, hrel, h⟩ := bind_eq_ok.mp h
      cases h
      obtain ⟨hjn, hclear⟩ := findClear_lt hj
      have hj' : j < bitPerBlock := by omega
      refine ⟨by omega, s, w, .refl, ⟨blk, u, v, ?_⟩, rfl⟩
      rw [bitmapBlock, div_bitPerBlock hj', Nat.mul_add_mod_of_lt hj']
      exact ⟨hacq, hclear, hsync, hrel⟩
    · obtain ⟨v, hrel, h⟩ := bind_eq_ok.mp h
      obtain ⟨hb, u', v', hscan, hflip, rfl⟩ := ih (by omega) h
      have hx : sb.bitmapStart.toNat + k < 2 ^ 64 := by
        have := sb.bitmapStart.toNat_lt
        omega
      exact ⟨hb, u', v', .head ⟨_, blk, u, hx, hacq, hrel⟩ hscan, hflip, rfl⟩

/-- What `cache_alloc` did when it returned block `b`. -/
theorem cacheAlloc_eq_ok {sb : SuperBlock} {ctx r : Option OpContext} {b : Nat} {s t : Cache}
    (h : cacheAlloc sb ctx s = .ok (b, r, t)) :
    b < sb.numBlocks.toNat ∧ ∃ u v, Scanned s u ∧
      Flipped ctx (bitmapBlock sb b) (b % bitPerBlock) false BlockData.setBit u r v ∧
      t = v.deviceWrite b .zero := by
  refine cacheAllocFrom_eq_ok ?_ h
  have := sb.numBlocks.toNat_lt
  unfold bitPerBlock blockSize
  omega

/-- What `cache_free` did when it returned: it panics on a clear bit. -/
theorem cacheFree_eq_ok {sb : SuperBlock} {ctx r : Option OpContext} {b : Nat} {s t : Cache}
    (h : cacheFree sb ctx b s = .ok (r, t)) :
    Flipped ctx (bitmapBlock sb b) (b % bitPerBlock) true BlockData.clearBit s r t := by
  obtain ⟨⟨blk, u⟩, hacq, h⟩ := bind_eq_ok.mp h
  dsimp only at h
  split at h
  · cases h
  · next hset =>
    obtain ⟨⟨r', v⟩, hsync, h⟩ := bind_eq_ok.mp h
    obtain ⟨w, hrel, h⟩ := bind_eq_ok.mp h
    cases h
    exact ⟨blk, u, v, hacq, by simpa using hset, hsync, hrel⟩

/-- Acquiring a block does not log it. -/
theorem unsafeCacheAcquire_header {s s' : Cache} {b : Nat} {blk : Block}
    (h : unsafeCacheAcquire b s = .ok (blk, s')) : s'.header = s.header := by
  obtain ⟨-, -, -, -, rfl⟩ := unsafeCacheAcquire_eq_ok.mp h
  simp

/-- The data does not depend on the other fields of a block. -/
theorem Cache.dataOf_setBlock {f : Block → Block} (hno : ∀ blk, (f blk).blockNo = blk.blockNo)
    (hdata : ∀ blk, (f blk).data = blk.data) (s : Cache) (b x : Nat) :
    (s.setBlock b f).dataOf x = s.dataOf x := by
  unfold dataOf
  rw [setBlock_blocks]
  by_cases hx : x = b
  · subst hx
    rw [getCache_setCache_self hno]
    cases getCache x s.blocks <;> simp [hdata]
  · rw [getCache_setCache_of_ne hno hx]

theorem Cache.dataOf_setData {s : Cache} {b : Nat} {blk : Block}
    (h : getCache b s.blocks = some blk) (d : BlockData) :
    (s.setBlock b (Block.setData d)).dataOf b = d := by
  unfold dataOf
  rw [setBlock_blocks, getCache_setCache_self (f := Block.setData d) (fun _ => rfl), h]
  rfl

/-! ## The two calls as runs

In the middle of such a run the system is in states that no caller sees, as the lock of the cache is
held. An invariant of the simple actions holds there too, which is more than is needed, and costs
nothing. -/

/-- The actions that make up a call of `cache_alloc` that returns `b` (`z = some b`) or of
`cache_free`; `bm` is the bitmap block that is changed. -/
def BitmapAction (c bm : Nat) (z : Option Nat) : Action → Prop
  | .acquire _ => True
  | .release _ => True
  | .change c' x _ => c' = c ∧ x = bm
  | .sync c' x => c' = some c ∧ x = bm
  | .zero b => z = some b
  | _ => False

/-- The runs that make up such a call from `s`. `P` holds of the header before and after it; and
if blocks with unsynced changes are held when the call starts, then the blocks it releases have
none. -/
abbrev BitmapRuns (sb : SuperBlock) (c bm : Nat) (z : Option Nat) (P : LogHeader → Prop)
    (s : Sys) : Sys → Prop :=
  Runs sb (fun u a => BitmapAction c bm z a ∧ u.Legal a ∧ (s.DirtyHeld → u.ReleasesClean a))
    (fun u => P u.cache.header) s

section Expand

variable {sb : SuperBlock} {c bm : Nat} {z : Option Nat} {P : LogHeader → Prop}

/-- Looking for a clear bit keeps the representation invariant. -/
theorem Scanned.rep {s t : Cache} (h : Scanned s t) (hs : s.Rep) : t.Rep := by
  induction h with
  | refl => exact hs
  | tail _ hlast ih =>
    obtain ⟨x, blk, u, -, hacq, hrel⟩ := hlast
    exact (ih.acquire hacq).release hrel

/-- Looking for a clear bit logs nothing. -/
theorem Scanned.header {s t : Cache} (h : Scanned s t) : t.header = s.header := by
  induction h with
  | refl => rfl
  | tail _ hlast ih =>
    obtain ⟨x, blk, u, -, hacq, hrel⟩ := hlast
    obtain ⟨-, rfl⟩ := cacheRelease_eq_ok.mp hrel
    rw [Cache.setBlock_header, unsafeCacheAcquire_header hacq, ih]

/-- Looking for a clear bit writes nothing to the device. -/
theorem Scanned.device {s t : Cache} (h : Scanned s t) : t.device = s.device := by
  induction h with
  | refl => rfl
  | tail _ hlast ih =>
    obtain ⟨x, blk, u, -, hacq, hrel⟩ := hlast
    obtain ⟨-, rfl⟩ := cacheRelease_eq_ok.mp hrel
    obtain ⟨-, -, -, -, rfl⟩ := unsafeCacheAcquire_eq_ok.mp hacq
    simpa using ih

/-- The search as a run of acquisitions and releases. By induction on the bitmap blocks that were
looked at; nothing is changed in any of them. -/
theorem Scanned.runs {s : Sys} {t : Cache} (h : Scanned s.cache t) (hs : s.cache.Rep)
    (hP : P s.cache.header) : BitmapRuns sb c bm z P s { s with cache := t } ∧
      (s.DirtyHeld → Sys.DirtyHeld { s with cache := t }) := by
  induction h with
  | refl => exact ⟨.refl, id⟩
  | tail hscan hlast ih =>
    rename_i u v
    obtain ⟨ih, ihd⟩ := ih
    obtain ⟨x, blk, w, hx, hacq, hrel⟩ := hlast
    have hu : u.Rep := Scanned.rep hscan hs
    have hPu : P w.header := by rwa [unsafeCacheAcquire_header hacq, Scanned.header hscan]
    obtain ⟨hget, hacqd⟩ := hu.getCache_acquire hacq
    obtain ⟨hcached, rfl⟩ := cacheRelease_eq_ok.mp hrel
    let s₁ : Sys := { s with cache := w }
    have h₁ : Sys.step sb { s with cache := u } (.acquire x) = .ok s₁ :=
      step_acquire.mpr ⟨blk, w, hacq, rfl⟩
    have h₂ : s₁.step sb (.release x) = .ok { s with cache := w.setBlock x Block.unlock } :=
      step_release.mpr ⟨hcached, rfl⟩
    -- The block was free, so it has no unsynced changes.
    have hclean : s.DirtyHeld → s.ghost.dirty x = none := by
      intro hd
      by_contra hdirty
      exact not_held_of_acquire (s := { s with cache := u }) hu hacq (ihd hd x hdirty)
    refine ⟨(ih.tail ⟨.acquire x, ⟨trivial, hx, fun _ => trivial⟩, h₁, hPu⟩).tail
      ⟨.release x, ⟨trivial, held_of_getCache hget hacqd, hclean⟩, h₂, hPu⟩, ?_⟩
    exact fun hd => Sys.DirtyHeld.release ((ihd hd).acquire hu h₁) (hclean hd) h₂

/-- A flipped bit is logged, not written. -/
theorem Flipped.device {ctx : OpContext} {r : Option OpContext} {j : Nat} {was : Bool}
    {f : BlockData → Nat → BlockData} {s t : Cache} (h : Flipped (some ctx) bm j was f s r t) :
    t.device = s.device := by
  obtain ⟨blk, u, v, hacq, -, hsync, hrel⟩ := h.run
  obtain ⟨-, -, -, -, rfl⟩ := unsafeCacheAcquire_eq_ok.mp hacq
  obtain ⟨-, rfl⟩ := cacheRelease_eq_ok.mp hrel
  obtain ⟨-, ⟨-, -, -, rfl⟩ | ⟨-, -, -, rfl⟩⟩ := unsafeCacheSync_ctx.mp hsync
  all_goals simp

/-- The system after a bitmap block was flipped under context `c`. The history has it as a change
and a sync of that block. -/
def flipSys (s : Sys) (c bm : Nat) (r : OpContext) (t : Cache) : Sys :=
  { s with
    cache := t
    ops := setOp c r s.ops
    ghost := (s.ghost.change c bm).sync (some c) bm (t.dataOf bm) }

/-- Flipping a bit as a run: the bitmap block is acquired, changed, synced under the context and
released. In between it is the only block with a change that is not synced. -/
theorem Flipped.runs {s : Sys} {ctx : OpContext} {j : Nat} {was : Bool}
    {f : BlockData → Nat → BlockData} {r : Option OpContext} {t : Cache}
    (hflip : Flipped (some ctx) bm j was f s.cache r t)
    (hs : s.cache.Rep) (hc : findOp c s.ops = some ctx) (hbm : bm < 2 ^ 64)
    (hP : P s.cache.header) (hPt : P t.header) (s₀ : Sys) :
    ∃ ctx', r = some ctx' ∧
      Runs sb (fun u a => BitmapAction c bm z a ∧ u.Legal a ∧ (s₀.DirtyHeld → u.ReleasesClean a))
        (fun u => P u.cache.header) s (flipSys s c bm ctx' t) := by
  obtain ⟨blk, u, v, hacq, -, hsync, hrel⟩ := hflip.run
  obtain ⟨hget, hacqd⟩ := hs.getCache_acquire hacq
  obtain ⟨hcachedv, rfl⟩ := cacheRelease_eq_ok.mp hrel
  have hopen : s.IsOpen c := List.mem_map_of_mem (findOp_mem hc)
  have hPu : P u.header := by rwa [unsafeCacheAcquire_header hacq]
  obtain ⟨ctx', rfl⟩ : ∃ ctx', r = some ctx' := by
    obtain ⟨-, ⟨-, -, rfl, -⟩ | ⟨-, -, rfl, -⟩⟩ := unsafeCacheSync_ctx.mp hsync
    · exact ⟨_, rfl⟩
    · exact ⟨_, rfl⟩
  refine ⟨ctx', rfl, ?_⟩
  -- The block keeps its flags while its data is changed, so it is still held when it is synced,
  -- and still acquired when it is released.
  have hgetd : getCache bm (u.setBlock bm (Block.setData (f blk.data j))).blocks =
      some (blk.setData (f blk.data j)) := by
    rw [Cache.setBlock_blocks, getCache_setCache_self (f := Block.setData _) (fun _ => rfl), hget]
    rfl
  have hgetv : getCache bm v.blocks = some (blk.setData (f blk.data j)).pin := by
    obtain ⟨-, ⟨-, -, -, rfl⟩ | ⟨-, -, -, rfl⟩⟩ := unsafeCacheSync_ctx.mp hsync
    all_goals
      rw [Cache.setBlock_blocks, getCache_setCache_self (f := Block.pin) (fun _ => rfl)]
      exact congrArg (Option.map Block.pin) hgetd
  have hdata : (v.setBlock bm Block.unlock).dataOf bm = f blk.data j := by
    rw [Cache.dataOf_setBlock (f := Block.unlock) (fun _ => rfl) (fun _ => rfl),
      Cache.dataOf_of_getCache hgetv]
    rfl
  let s₁ : Sys := { s with cache := u }
  let s₂ : Sys :=
    { s with
      cache := u.setBlock bm (Block.setData (f blk.data j)), ghost := s.ghost.change c bm }
  let s₃ : Sys :=
    { s with
      cache := v
      ops := setOp c ctx' s.ops
      ghost := (s.ghost.change c bm).sync (some c) bm (f blk.data j) }
  have h₁ : s.step sb (.acquire bm) = .ok s₁ := step_acquire.mpr ⟨blk, u, hacq, rfl⟩
  have h₂ : s₁.step sb (.change c bm (f blk.data j)) = .ok s₂ :=
    step_change.mpr ⟨⟨blk, hget⟩, rfl⟩
  have h₃ : s₂.step sb (.sync (some c) bm) = .ok s₃ := by
    refine step_sync.mpr ⟨ctx, ctx', v, hc, hsync, ?_⟩
    show s₃ = _
    rw [show s₂.cache.dataOf bm = f blk.data j from Cache.dataOf_setData hget _]
  have h₄ : s₃.step sb (.release bm) = .ok (flipSys s c bm ctx' (v.setBlock bm Block.unlock)) := by
    refine step_release.mpr ⟨hcachedv, ?_⟩
    rw [flipSys, hdata]
  refine Relation.ReflTransGen.tail (.tail (.tail (.tail .refl
    ⟨.acquire bm, ⟨trivial, hbm, fun _ => trivial⟩, h₁, hPu⟩)
    ⟨.change c bm _, ⟨⟨rfl, rfl⟩, ⟨hopen, ?_⟩, fun _ => trivial⟩, h₂, hPu⟩)
    ⟨.sync (some c) bm, ⟨⟨rfl, rfl⟩, ⟨hopen, ?_⟩, fun _ => trivial⟩, h₃, hPt⟩)
    ⟨.release bm, ⟨trivial, ?_, fun _ => ?_⟩, h₄, hPt⟩
  · exact held_of_getCache hget hacqd
  · exact held_of_getCache hgetd hacqd
  · exact held_of_getCache hgetv hacqd
  · show (Ghost.sync _ _ bm _).dirty bm = none
    simp [Ghost.sync]

theorem bitmapBlock_lt (sb : SuperBlock) {b : Nat} (hb : b < 2 ^ 64) :
    bitmapBlock sb b < 2 ^ 64 := by
  have := sb.bitmapStart.toNat_lt
  unfold bitmapBlock bitPerBlock blockSize
  omega

/-- The block number that `cache_alloc` returns in the current state. The search is deterministic,
so the state before the call decides it. -/
def Sys.allocChoice (sb : SuperBlock) (s : Sys) (c : Nat) : Option Nat :=
  match findOp c s.ops with
  | none => none
  | some ctx =>
    match cacheAlloc sb (some ctx) s.cache with
    | .ok (b, _) => some b
    | .error _ => none

/-- `cache_alloc` as a run of simple actions: blocks are scanned, one bit is set and synced, and the
block that was found is zeroed. What holds of every run holds of the call then. -/
theorem alloc_runs {s t : Sys} (h : s.step sb (.alloc c) = .ok t) (hs : s.cache.Rep)
    (hP : P s.cache.header) (hPt : P t.cache.header) :
    ∃ b, s.allocChoice sb c = some b ∧
      BitmapRuns sb c (bitmapBlock sb b) (some b) P s t := by
  obtain ⟨ctx, r, b, cache, hc, halloc, rfl⟩ := step_alloc.mp h
  refine ⟨b, by simp [Sys.allocChoice, hc, halloc], ?_⟩
  obtain ⟨hb, u, v, hscan, hflip, rfl⟩ := cacheAlloc_eq_ok halloc
  have hb64 : b < 2 ^ 64 := by
    have := sb.numBlocks.toNat_lt
    omega
  have hPu : P u.header := by rwa [hscan.header]
  obtain ⟨ctx', rfl, hruns⟩ := Flipped.runs (s := { s with cache := u }) (z := some b) hflip
    (hscan.rep hs) hc (bitmapBlock_lt sb hb64) hPu hPt s
  refine (hscan.runs hs hP).1.trans
    (hruns.tail ⟨.zero b, ⟨rfl, trivial, fun _ => trivial⟩, ?_, hPt⟩)
  -- Neither the search nor the sync wrote to the device.
  have hpos : v.device = s.cache.device := hflip.device.trans hscan.device
  apply step_zero.mpr
  simp only [flipSys, Sys.nextPos, hpos]
  rfl

/-- `cache_free` as a run of simple actions. -/
theorem free_runs {s t : Sys} {b : Nat} (h : s.step sb (.free c b) = .ok t) (hs : s.cache.Rep)
    (hb : b < 2 ^ 64) (hP : P s.cache.header) (hPt : P t.cache.header) :
    BitmapRuns sb c (bitmapBlock sb b) none P s t := by
  obtain ⟨ctx, r, cache, hc, hfree, rfl⟩ := step_free.mp h
  obtain ⟨ctx', rfl, hruns⟩ :=
    (cacheFree_eq_ok hfree).runs hs hc (bitmapBlock_lt sb hb) hP hPt s
  exact hruns

/-- Neither `cache_alloc` nor `cache_free`. These two are made of simple actions, so invariants are
proved for simple actions only. -/
def Action.Simple : Action → Prop
  | .alloc _ => False
  | .free _ _ => False
  | _ => True

/-- An invariant that the simple actions keep is kept by `cache_alloc` and `cache_free` too. By
induction on the run, with each of the two calls replaced by its steps. -/
theorem Runs.expand {ok Q : Sys → Action → Prop} {inv : Sys → Prop} {s t : Sys}
    (h : Runs sb ok (fun u => P u.cache.header) s t) (hs : inv s)
    (hrep : ∀ u, inv u → u.cache.Rep) (hP : ∀ u, inv u → P u.cache.header)
    (hlegal : ∀ u a, ok u a → u.Legal a)
    (hstep : ∀ u v a, a.Simple → inv u → Q u a → u.step sb a = .ok v → P v.cache.header →
      inv v)
    (hsimple : ∀ u a, a.Simple → inv u → ok u a → Q u a)
    (halloc : ∀ u c b v a, inv u → ok u (.alloc c) → u.allocChoice sb c = some b →
      BitmapRuns sb c (bitmapBlock sb b) (some b) P u v →
      BitmapAction c (bitmapBlock sb b) (some b) a → v.Legal a →
      (u.DirtyHeld → v.ReleasesClean a) → Q v a)
    (hfree : ∀ u c b v a, inv u → ok u (.free c b) →
      BitmapRuns sb c (bitmapBlock sb b) none P u v →
      BitmapAction c (bitmapBlock sb b) none a → v.Legal a →
      (u.DirtyHeld → v.ReleasesClean a) → Q v a) : inv t := by
  -- The steps of one call keep the invariant, each of them allowed because the call is.
  have hcall : ∀ {u v c bm z}, inv u → BitmapRuns sb c bm z P u v →
      (∀ w a, BitmapRuns sb c bm z P u w → BitmapAction c bm z a → w.Legal a →
        (u.DirtyHeld → w.ReleasesClean a) → Q w a) → inv v := by
    intro u v c bm z hu hruns hall
    apply hruns.invariant_from hu
    rintro w x a hw hinv ⟨ha, hal, hclean⟩ hx hPx
    have hsimple : a.Simple := by
      cases a <;> first | exact ha.elim | trivial
    exact hstep w x a hsimple hinv (hall w a hw ha hal hclean) hx hPx
  apply h.invariant hs
  intro u v a hu hok hv hPv
  have hsteps := fun ha => hstep u v a ha hu (hsimple u a ha hu hok) hv hPv
  cases a with
  | alloc c =>
    obtain ⟨b, hb, hruns⟩ := alloc_runs hv (hrep u hu) (hP u hu) hPv
    exact hcall hu hruns fun w a hw ha => halloc u c b w a hu hok hb hw ha
  | free c b =>
    have hruns := free_runs hv (hrep u hu) (hlegal u _ hok).2 (hP u hu) hPv
    exact hcall hu hruns fun w a hw ha => hfree u c b w a hu hok hw ha
  | acquire b => exact hsteps trivial
  | change c b d => exact hsteps trivial
  | sync c b => exact hsteps trivial
  | release b => exact hsteps trivial
  | beginOp c => exact hsteps trivial
  | endOp c => exact hsteps trivial
  | zero b => exact hsteps trivial

end Expand

end KernelAarch64.Fs
