import KernelAarch64.Fs.Inode.Loaded
import Mathlib.Order.Bounds.Defs

/-!
# The calls that the inode layer makes

`BlockCache.recorded` is a block cache that writes down the calls that change a block, give it back
or sync it. The functions of the inode layer take any cache, so they run on this one too, and what
they do to the blocks of others, or twice, is seen in the record.

Two results come from it. `inodeAlloc_first_fit` says which inode `inode_alloc` takes and that it
stores to and syncs one block; `inodeClear_frees_once` says that a truncation gives back each block
of the inode once and nothing else, after any writes and truncations before it. The second one
counts the calls along the two loops (`clearDirect_loop_calls`, `clearIndirect_loop_calls`), and
gets from the invariant of the block map that the blocks are distinct (`Owns.ownedBlocks`).
-/

namespace KernelAarch64.Fs

open KernelAarch64.Lib

/-- A call of the block cache, or an assignment through the pointer it returned: those calls that
change something on the disk, sooner or later. -/
inductive CacheCall where
  | store (b : Nat)
  | sync (b : Nat)
  | free (b : Nat)
  deriving Repr, DecidableEq

variable {σ : Type}

/-- The cache with a record of the calls. The calls are passed on, and those that are recorded are
appended after they have returned. -/
def BlockCache.recorded (cache : BlockCache σ) : BlockCache (σ × List CacheCall) where
  acquire b s := do
    let t ← cache.acquire b s.1
    return (t, s.2)
  release b s := do
    let t ← cache.release b s.1
    return (t, s.2)
  sync b s := do
    let t ← cache.sync b s.1
    return (t, s.2 ++ [.sync b])
  alloc s := do
    let (b, t) ← cache.alloc s.1
    return (b, t, s.2)
  free b s := do
    let t ← cache.free b s.1
    return (t, s.2 ++ [.free b])
  data b s := cache.data b s.1
  setData b d s := do
    let t ← cache.setData b d s.1
    return (t, s.2 ++ [.store b])
  bytes b s := cache.bytes b s.1
  setBytes b d s := do
    let t ← cache.setBytes b d s.1
    return (t, s.2 ++ [.store b])

namespace BlockCache.Ideal

variable {cache : BlockCache σ}

/-- The record does not change what the cache does: each property of the calls is that of the cache
without the record. -/
def recorded (c : cache.Ideal) : cache.recorded.Ideal where
  mem s := c.mem s.1
  used s := c.used s.1
  pool := c.pool
  pool_u32 := c.pool_u32
  acquire b s := by
    obtain ⟨t, h, hmem, hused⟩ := c.acquire b s.1
    exact ⟨(t, s.2), by simp only [BlockCache.recorded, h, ok_bind]; rfl, hmem, hused⟩
  release b s := by
    obtain ⟨t, h, hmem, hused⟩ := c.release b s.1
    exact ⟨(t, s.2), by simp only [BlockCache.recorded, h, ok_bind]; rfl, hmem, hused⟩
  sync b s := by
    obtain ⟨t, h, hmem, hused⟩ := c.sync b s.1
    exact ⟨(t, s.2 ++ [.sync b]), by simp only [BlockCache.recorded, h, ok_bind]; rfl, hmem, hused⟩
  data b s := c.data b s.1
  setData b d s := by
    obtain ⟨t, h, hmem, hused⟩ := c.setData b d s.1
    exact ⟨(t, s.2 ++ [.store b]), by simp only [BlockCache.recorded, h, ok_bind]; rfl, hmem, hused⟩
  bytes b s := c.bytes b s.1
  setBytes b d s := by
    obtain ⟨t, h, hmem, hused⟩ := c.setBytes b d s.1
    exact ⟨(t, s.2 ++ [.store b]), by simp only [BlockCache.recorded, h, ok_bind]; rfl, hmem, hused⟩
  alloc s hfree := by
    obtain ⟨b, t, h, hb⟩ := c.alloc s.1 hfree
    exact ⟨b, (t, s.2), by simp only [BlockCache.recorded, h, ok_bind]; rfl, hb⟩
  free b s hb := by
    obtain ⟨t, h, hmem, hused⟩ := c.free b s.1 hb
    exact ⟨(t, s.2 ++ [.free b]), by simp only [BlockCache.recorded, h, ok_bind]; rfl, hmem, hused⟩

/-- Reading a block is no call. -/
theorem read_recorded (c : cache.Ideal) (b : Nat) (s : σ) (calls : List CacheCall) :
    ∃ t, cache.recorded.acquire b (s, calls) = .ok (t, calls) ∧
      cache.recorded.data b (t, calls) = .ok (c.mem s b) ∧ c.mem t = c.mem s := by
  obtain ⟨t, hacq, hmem, -⟩ := c.acquire b s
  refine ⟨t, ?_, ?_, hmem⟩
  · simp only [BlockCache.recorded, hacq, ok_bind]
    rfl
  · rw [← hmem]
    exact c.data b t

/-- Storing and syncing a block, as `inode_alloc` and `inode_sync` do, is two calls. -/
theorem store_sync_recorded (c : cache.Ideal) (b : Nat) (d : BlockData) (s : σ)
    (calls : List CacheCall) :
    ∃ s₁ s₂ t : σ, cache.recorded.setData b d (s, calls) = .ok (s₁, calls ++ [CacheCall.store b]) ∧
      cache.recorded.sync b (s₁, calls ++ [.store b]) = .ok (s₂, calls ++ [.store b, .sync b]) ∧
      cache.recorded.release b (s₂, calls ++ [.store b, .sync b]) =
        .ok (t, calls ++ [.store b, .sync b]) ∧
      c.mem t = Function.update (c.mem s) b d ∧ c.used t = c.used s := by
  obtain ⟨s₁, hset, hmem₁, hused₁⟩ := c.setData b d s
  obtain ⟨s₂, hsync, hmem₂, hused₂⟩ := c.sync b s₁
  obtain ⟨t, hrel, hmem, hused⟩ := c.release b s₂
  refine ⟨s₁, s₂, t, ?_, ?_, ?_, by rw [hmem, hmem₂, hmem₁], by rw [hused, hused₂, hused₁]⟩
  · simp only [BlockCache.recorded, hset, ok_bind]
    rfl
  · simp only [BlockCache.recorded, hsync, ok_bind, List.append_assoc]
    rfl
  · simp only [BlockCache.recorded, hrel, ok_bind]
    rfl

end BlockCache.Ideal

/-! ## Allocation

The search is a double loop over the blocks of inodes and the entries in them. `inodeAllocSearch` is
the outer one without its last line, so that its failure is a value. -/

/-- `inode_alloc` up to its last line: the loop from inode `i` on, with `n` blocks to go. The result
is the inode it took, if there was one. -/
def inodeAllocSearch (sb : SuperBlock) (cache : BlockCache σ) (type : UInt16) :
    Nat → Nat → σ → Except Stop (Option Nat × σ)
  | 0, _, s => .ok (none, s)
  | n + 1, i, s => do
    let b := toBlockNo sb i
    let s ← cache.acquire b s
    let d ← cache.data b s
    match findFreeInode sb d i with
    | some inodeNo =>
      let s ← cache.setData b (putEntry d inodeNo { InodeEntry.zero with type := type }) s
      let s ← cache.sync b s
      let s ← cache.release b s
      return (some inodeNo, s)
    | none =>
      let s ← cache.release b s
      inodeAllocSearch sb cache type n (i + inodePerBlock) s

/-- `if (inode_number) return inode_number; else PANIC(...)`: the search, and what becomes of its
result. -/
theorem inodeAllocFrom_eq (sb : SuperBlock) (cache : BlockCache σ) (type : UInt16) (n i : Nat)
    (s : σ) : inodeAllocFrom sb cache type n i s = (do
      let (found, s) ← inodeAllocSearch sb cache type n i s
      match found with
      | some inodeNo => return (inodeNo, s)
      | none => .error (.panic "failed to allocate inode on disk")) := by
  induction n generalizing i s with
  | zero => rfl
  | succ n ih =>
    simp only [inodeAllocFrom, inodeAllocSearch, bind_assoc]
    congr 1
    funext s₁
    congr 1
    funext d
    cases findFreeInode sb d i with
    | some m => simp only [bind_assoc, pure_bind]
    | none => simp only [ih, bind_assoc]

/-- A block without a free inode. -/
theorem findFreeInode_eq_none {sb : SuperBlock} {d : BlockData} {i : Nat} :
    findFreeInode sb d i = none ↔ ∀ j, i ≤ j → j < i + inodePerBlock →
      ¬ (1 < j ∧ j < sb.numInodes.toNat ∧ (getEntry d j).type = inodeInvalid) := by
  simp only [findFreeInode, Option.map_eq_none_iff, List.find?_eq_none, List.mem_range,
    decide_eq_true_eq]
  constructor
  · intro h j hle hlt
    have := h (j - i) (by omega)
    rwa [show i + (j - i) = j by omega] at this
  · intro h j hj
    exact h (i + j) (by omega) (by omega)

/-- The inode that is found is the first one of its block. -/
theorem lt_findFreeInode {sb : SuperBlock} {d : BlockData} {i n : Nat}
    (h : findFreeInode sb d i = some n) {j : Nat} (hle : i ≤ j) (hlt : j < n) :
    ¬ (1 < j ∧ j < sb.numInodes.toNat ∧ (getEntry d j).type = inodeInvalid) := by
  simp only [findFreeInode, Option.map_eq_some_iff] at h
  obtain ⟨k, hfind, rfl⟩ := h
  have hfirst := (List.find?_range_eq_some.mp hfind).2.2 (j - i) (by omega)
  rw [show i + (j - i) = j by omega] at hfirst
  intro hfree
  simp [hfree] at hfirst

namespace BlockCache.Ideal

variable {cache : BlockCache σ} {c : cache.Ideal} {sb : SuperBlock} {s : σ}

/-- An inode that `inode_alloc` may take. -/
def FreeInode (c : cache.Ideal) (sb : SuperBlock) (s : σ) (i : Nat) : Prop :=
  1 < i ∧ i < sb.numInodes.toNat ∧ (c.entryOf sb s i).type = inodeInvalid

/-- Whether an inode is free depends on the blocks only. -/
theorem freeInode_of_mem {t : σ} (h : c.mem t = c.mem s) (j : Nat) :
    c.FreeInode sb t j ↔ c.FreeInode sb s j := by
  rw [FreeInode, FreeInode, entryOf, entryOf, h]

/-- The entries of a block are those the inner loop looks at. -/
theorem freeInode_of_range {i j : Nat} (hi : i % inodePerBlock = 0) (hle : i ≤ j)
    (hlt : j < i + inodePerBlock) :
    c.FreeInode sb s j ↔ 1 < j ∧ j < sb.numInodes.toNat ∧
      (getEntry (c.mem s (toBlockNo sb i)) j).type = inodeInvalid := by
  rw [FreeInode, entryOf, toBlockNo_of_range sb hi hle hlt]

/-- A turn that finds no free inode. -/
theorem inodeAllocSearch_none {i : Nat}
    (hfind : findFreeInode sb (c.mem s (toBlockNo sb i)) i = none) (type : UInt16) (k : Nat)
    (calls : List CacheCall) :
    ∃ t, c.mem t = c.mem s ∧ inodeAllocSearch sb cache.recorded type (k + 1) i (s, calls) =
      inodeAllocSearch sb cache.recorded type k (i + inodePerBlock) (t, calls) := by
  obtain ⟨s₁, hacq, hdata, hmem₁⟩ := c.read_recorded (toBlockNo sb i) s calls
  obtain ⟨t, hrel, hmem, -⟩ := c.release (toBlockNo sb i) s₁
  have hrel' : cache.recorded.release (toBlockNo sb i) (s₁, calls) = .ok (t, calls) := by
    simp only [BlockCache.recorded, hrel, ok_bind]
    rfl
  refine ⟨t, hmem.trans hmem₁, ?_⟩
  simp only [inodeAllocSearch, hacq, ok_bind, hdata, hfind, hrel']

/-- A turn that takes an inode of its block: the entry is cleared and gets its type, and one store
and one sync of this block are recorded. -/
theorem inodeAllocSearch_some {i n : Nat}
    (hfind : findFreeInode sb (c.mem s (toBlockNo sb i)) i = some n) (type : UInt16) (k : Nat)
    (calls : List CacheCall) :
    ∃ t, inodeAllocSearch sb cache.recorded type (k + 1) i (s, calls) =
        .ok (some n, t, calls ++ [.store (toBlockNo sb i), .sync (toBlockNo sb i)]) ∧
      c.mem t = Function.update (c.mem s) (toBlockNo sb i) (putEntry (c.mem s (toBlockNo sb i)) n
        { InodeEntry.zero with type := type }) := by
  obtain ⟨s₁, hacq, hdata, hmem₁⟩ := c.read_recorded (toBlockNo sb i) s calls
  obtain ⟨s₂, s₃, t, hset, hsync, hrel, hmem, -⟩ := c.store_sync_recorded (toBlockNo sb i)
    (putEntry (c.mem s (toBlockNo sb i)) n { InodeEntry.zero with type := type }) s₁ calls
  refine ⟨t, ?_, by rw [hmem, hmem₁]⟩
  simp only [inodeAllocSearch, hacq, ok_bind, hdata, hfind, hset, hsync, hrel]
  rfl

/-- The loop of `inode_alloc` takes the first free inode it comes to. By induction on the blocks to
go; a block without a free inode is released as it was. -/
theorem inodeAllocSearch_spec (c : cache.Ideal) (sb : SuperBlock) (type : UInt16) (k : Nat) {i : Nat}
    (hi : i % inodePerBlock = 0) (s : σ) (calls : List CacheCall) :
    (∃ t, inodeAllocSearch sb cache.recorded type k i (s, calls) = .ok (none, t, calls) ∧
      (∀ j, i ≤ j → j < i + k * inodePerBlock → ¬ c.FreeInode sb s j) ∧ c.mem t = c.mem s) ∨
    (∃ n t, inodeAllocSearch sb cache.recorded type k i (s, calls) =
        .ok (some n, t, calls ++ [.store (toBlockNo sb n), .sync (toBlockNo sb n)]) ∧
      i ≤ n ∧ c.FreeInode sb s n ∧ (∀ j, i ≤ j → j < n → ¬ c.FreeInode sb s j) ∧
      c.mem t = Function.update (c.mem s) (toBlockNo sb n) (putEntry (c.mem s (toBlockNo sb n)) n
        { InodeEntry.zero with type := type })) := by
  induction k generalizing i s with
  | zero => exact .inl ⟨s, rfl, fun j hle hlt => by omega, rfl⟩
  | succ k ih =>
    cases hfind : findFreeInode sb (c.mem s (toBlockNo sb i)) i with
    | none =>
      obtain ⟨s₂, hmem, hstep⟩ := inodeAllocSearch_none hfind type k calls
      -- No inode of this block is free, so the search goes on in the next one.
      have hhere : ∀ j, i ≤ j → j < i + inodePerBlock → ¬ c.FreeInode sb s j := by
        intro j hle hlt
        rw [freeInode_of_range hi hle hlt]
        exact findFreeInode_eq_none.mp hfind j hle hlt
      rw [hstep]
      rcases ih (i := i + inodePerBlock) (by rw [Nat.add_mod_right, hi]) s₂ with
        ⟨t, hrun, hnone, hmemt⟩ | ⟨n, t, hrun, hle, hfree, hfirst, hmemt⟩
      · refine .inl ⟨t, hrun, ?_, hmemt.trans hmem⟩
        intro j hle hlt
        by_cases hj : j < i + inodePerBlock
        · exact hhere j hle hj
        · rw [← freeInode_of_mem hmem]
          exact hnone j (by omega) (by rw [Nat.succ_mul] at hlt; omega)
      · rw [hmem] at hmemt
        refine .inr ⟨n, t, hrun, by omega, (freeInode_of_mem hmem n).mp hfree, ?_, hmemt⟩
        intro j hle' hlt
        by_cases hj : j < i + inodePerBlock
        · exact hhere j hle' hj
        · rw [← freeInode_of_mem hmem]
          exact hfirst j (by omega) hlt
    | some n =>
      obtain ⟨h1, hn, hfree, hle, hlt⟩ := findFreeInode_eq_some hfind
      obtain ⟨t, hrun, hmem⟩ := inodeAllocSearch_some hfind type k calls
      rw [← toBlockNo_of_range sb hi hle hlt] at hrun hmem
      refine .inr ⟨n, t, hrun, hle, (freeInode_of_range hi hle hlt).mpr ⟨h1, hn, hfree⟩, ?_, hmem⟩
      intro j hle' hlt'
      rw [freeInode_of_range hi hle' (by omega)]
      exact lt_findFreeInode hfind hle' hlt'

/-- `inode_alloc` on a cache with a record. -/
theorem inodeAlloc_eq_search {type : UInt16} (htype : type ≠ inodeInvalid) :
    inodeAlloc sb cache type s = (do
      let (found, s) ← inodeAllocSearch sb cache type
        ((sb.numInodes.toNat + (inodePerBlock - 1)) / inodePerBlock) 0 s
      match found with
      | some inodeNo => return (inodeNo, s)
      | none => .error (.panic "failed to allocate inode on disk")) := by
  rw [inodeAlloc, kassert_of htype, ok_bind, inodeAllocFrom_eq]

/-- `inode_alloc` takes the first free inode from number 2 on. It replaces the entry of this inode
by a new one, syncs the block of the entry, and stores to and syncs nothing else. It panics if and
only if no inode is free, and has stored nothing then. -/
theorem inodeAlloc_first_fit (c : cache.Ideal) (sb : SuperBlock) (s : σ) {type : UInt16}
    (htype : type ≠ inodeInvalid) :
    (∀ n, IsLeast {i | c.FreeInode sb s i} n →
      ∃ t, inodeAlloc sb cache.recorded type (s, []) =
          .ok (n, t, [.store (toBlockNo sb n), .sync (toBlockNo sb n)]) ∧
        c.entryOf sb t n = { InodeEntry.zero with type := type } ∧
        ∀ b k, k < blockSize → ¬ (b = toBlockNo sb n ∧ k / 64 = n % inodePerBlock) →
          (c.mem t b).byte k = (c.mem s b).byte k) ∧
    ((∀ i, ¬ c.FreeInode sb s i) ↔
      inodeAlloc sb cache.recorded type (s, []) =
        .error (.panic "failed to allocate inode on disk")) ∧
    ((∀ i, ¬ c.FreeInode sb s i) →
      ∃ t, inodeAllocSearch sb cache.recorded type
          ((sb.numInodes.toNat + (inodePerBlock - 1)) / inodePerBlock) 0 (s, []) = .ok (none, t, []) ∧
        c.mem t = c.mem s) := by
  -- The blocks that are searched have all inodes.
  have hturns : sb.numInodes.toNat ≤
      (sb.numInodes.toNat + (inodePerBlock - 1)) / inodePerBlock * inodePerBlock := by
    have h8 : inodePerBlock = 8 := rfl
    rw [h8]
    omega
  have hrun : inodeAlloc sb cache.recorded type (s, []) = _ := inodeAlloc_eq_search htype
  rcases inodeAllocSearch_spec c sb type
    ((sb.numInodes.toNat + (inodePerBlock - 1)) / inodePerBlock) (i := 0) rfl s [] with
    ⟨t, hsearch, hnone, hmem⟩ | ⟨n, t, hsearch, -, hfree, hfirst, hmem⟩
  · rw [hsearch, ok_bind] at hrun
    have hno : ∀ i, ¬ c.FreeInode sb s i := by
      intro i hi
      exact hnone i (Nat.zero_le i) (by have := hi.2.1; omega) hi
    refine ⟨fun n hn => absurd hn.1 (hno n), ⟨fun _ => hrun, fun _ => hno⟩, fun _ => ?_⟩
    exact ⟨t, hsearch, hmem⟩
  · rw [hsearch, ok_bind] at hrun
    refine ⟨fun m hm => ?_, ⟨fun hno => absurd hfree (hno n), fun hpanic => ?_⟩,
      fun hno => absurd hfree (hno n)⟩
    -- The least free inode is the one the search has found.
    · have hmn : m = n := by
        refine Nat.le_antisymm (hm.2 hfree) (Nat.not_lt.mp fun hlt => ?_)
        exact hfirst m (Nat.zero_le m) hlt hm.1
      subst hmn
      refine ⟨t, hrun, ?_, ?_⟩
      · rw [entryOf, hmem, Function.update_self, getEntry_putEntry, if_pos rfl]
      · intro b k hk hother
        rw [hmem]
        by_cases hb : b = toBlockNo sb m
        · rw [hb, Function.update_self, byte_putEntry _ _ _ hk, if_neg fun h => hother ⟨hb, h⟩]
        · rw [Function.update_of_ne hb]
    · rw [hrun] at hpanic
      cases hpanic

end BlockCache.Ideal

/-- Inodes 2 and 3 are taken and 4 is free, so that the call takes 4 and stores the one block it is
in. -/
theorem inodeAlloc_first_fit_four : ∃ t,
    inodeAlloc (smallSuperBlock 20) mockCache.recorded 2
      (⟨fun _ => putEntry (putEntry .zero 2 { InodeEntry.zero with type := 2 }) 3
        { InodeEntry.zero with type := 2 }, {100}⟩, []) = .ok (4, t, [.store 100, .sync 100]) := by
  obtain ⟨hfit, -, -⟩ := mockCacheIdeal.inodeAlloc_first_fit (smallSuperBlock 20)
    ⟨fun _ => putEntry (putEntry .zero 2 { InodeEntry.zero with type := 2 }) 3
      { InodeEntry.zero with type := 2 }, {100}⟩
    (show (2 : UInt16) ≠ inodeInvalid by decide)
  obtain ⟨t, hrun, -⟩ := hfit 4 (by
    refine ⟨⟨by decide, by decide, by decide +kernel⟩, ?_⟩
    rintro i ⟨hi, -, hfree⟩
    by_contra hlt
    have hcases : i = 2 ∨ i = 3 := by omega
    rcases hcases with rfl | rfl
    all_goals
      revert hfree
      decide +kernel)
  exact ⟨t, hrun⟩

/-! ## Truncation

The indirect block is read while the blocks in it are given back. It must not change before the last
of them is; it does not, as the calls in between are on other blocks. -/

/-- The blocks in the slots of an inode, in this order. -/
def InodeEntry.ownedBlocks (e : InodeEntry) (mem : Disk) : List Nat :=
  ((List.range numSlots).map (e.slot mem)).filter (· ≠ 0)

/-- The record of giving back `bs`, of which those that are `0` are no blocks. -/
def freeCalls (bs : List Nat) : List CacheCall := (bs.filter (· ≠ 0)).map .free

theorem freeCalls_append (bs bs' : List Nat) :
    freeCalls (bs ++ bs') = freeCalls bs ++ freeCalls bs' := by
  simp [freeCalls]

/-- Empty slots give nothing back. -/
theorem freeCalls_zero {bs : List Nat} (h : ∀ b ∈ bs, b = 0) : freeCalls bs = [] := by
  have hnone : bs.filter (· ≠ 0) = [] := by
    rw [List.filter_eq_nil_iff]
    intro b hb
    simpa using h b hb
  rw [freeCalls, hnone, List.map_nil]

/-- A block given back is recorded. -/
theorem BlockCache.recorded_free {cache : BlockCache σ} {b : Nat} {s t : σ × List CacheCall}
    (h : cache.recorded.free b s = .ok t) : t.2 = s.2 ++ [.free b] := by
  obtain ⟨u, -, hu⟩ := bind_eq_ok.mp h
  cases hu
  rfl

/-- An acquisition is not recorded. -/
theorem BlockCache.recorded_acquire {cache : BlockCache σ} {b : Nat} {s t : σ × List CacheCall}
    (h : cache.recorded.acquire b s = .ok t) : t.2 = s.2 := by
  obtain ⟨u, -, hu⟩ := bind_eq_ok.mp h
  cases hu
  rfl

theorem BlockCache.recorded_release {cache : BlockCache σ} {b : Nat} {s t : σ × List CacheCall}
    (h : cache.recorded.release b s = .ok t) : t.2 = s.2 := by
  obtain ⟨u, -, hu⟩ := bind_eq_ok.mp h
  cases hu
  rfl

section Clear

variable {cache : BlockCache σ} {inode inode' : Inode} {s t : σ × List CacheCall}

/-- One turn of the first loop: it frees the block of the address unless that is zero, and clears
the address. -/
theorem clearDirect_calls (hvalid : inode.valid = true) {i : Fin inodeNumDirect}
    (h : clearDirect cache.recorded (inode, s) i = .ok (inode', t)) :
    t.2 = s.2 ++ freeCalls [(inode.entry.addrs i).toNat] ∧ inode' = inode.setAddr i 0 := by
  unfold clearDirect at h
  by_cases haddr : inode.entry.addrs i = 0
  · simp only [haddr, ne_eq, not_true_eq_false, if_false] at h
    cases h
    have hsame : inode.setAddr i 0 = inode := by
      rw [Inode.setAddr, ← haddr, Function.update_eq_self]
    refine ⟨?_, hsame.symm⟩
    rw [haddr, freeCalls_zero (by simp), List.append_nil]
  · simp only [haddr, ne_eq, not_false_eq_true, if_true, hvalid] at h
    obtain ⟨u, hfree, hu⟩ := bind_eq_ok.mp h
    cases hu
    refine ⟨?_, rfl⟩
    have hne : (inode.entry.addrs i).toNat ≠ 0 := toNat_eq_zero.not.mpr haddr
    simp [BlockCache.recorded_free hfree, freeCalls, hne]

/-- The first loop of `inode_clear` gives the direct blocks back, in their order. By induction on
the indices, none of which comes twice. -/
theorem clearDirect_loop_calls (hvalid : inode.valid = true) {l : List (Fin inodeNumDirect)}
    (hnodup : l.Nodup) (h : l.foldlM (clearDirect cache.recorded) (inode, s) = .ok (inode', t)) :
    t.2 = s.2 ++ freeCalls (l.map fun i => (inode.entry.addrs i).toNat) := by
  induction l generalizing inode s with
  | nil =>
    cases h
    exact (List.append_nil _).symm
  | cons i l ih =>
    rw [List.nodup_cons] at hnodup
    rw [List.foldlM_cons] at h
    obtain ⟨⟨inode₁, s₁⟩, hturn, hrest⟩ := bind_eq_ok.mp h
    obtain ⟨hcalls, rfl⟩ := clearDirect_calls hvalid hturn
    have hsame : (l.map fun j => ((inode.setAddr i 0).entry.addrs j).toNat) =
        l.map fun j => (inode.entry.addrs j).toNat := by
      apply List.map_congr_left
      intro j hj
      have hji : j ≠ i := by
        rintro rfl
        exact hnodup.1 hj
      simp [Inode.setAddr, Function.update_of_ne hji]
    have hvalid' : (inode.setAddr i 0).valid = true := hvalid
    rw [ih hvalid' hnodup.2 hrest, hsame, hcalls, List.append_assoc, ← freeCalls_append]
    rfl

/-- The second loop of `inode_clear` gives back the blocks in the indirect block, as long as this
one stays as it is. -/
theorem clearIndirect_loop_calls {b n : Nat} {d : BlockData}
    (hsame : ∀ m < n, ∀ u, (List.range m).foldlM (clearIndirect cache.recorded b) s = .ok u →
      cache.recorded.bytes b u = .ok d)
    (h : (List.range n).foldlM (clearIndirect cache.recorded b) s = .ok t) :
    t.2 = s.2 ++ freeCalls ((List.range n).map fun i => (d.u32 i).toNat) := by
  induction n generalizing t with
  | zero =>
    cases h
    exact (List.append_nil _).symm
  | succ n ih =>
    rw [List.range_succ, List.foldlM_append] at h
    obtain ⟨u, hloop, hturn⟩ := bind_eq_ok.mp h
    rw [List.foldlM_cons] at hturn
    obtain ⟨v, hturn, hv⟩ := bind_eq_ok.mp hturn
    cases hv
    have hcalls := ih (fun m hm => hsame m (Nat.lt_succ_of_lt hm)) hloop
    simp only [clearIndirect, hsame n (Nat.lt_succ_self n) u hloop, ok_bind] at hturn
    rw [List.range_succ, List.map_append, freeCalls_append, ← List.append_assoc, ← hcalls]
    by_cases hentry : d.u32 n = 0
    · simp only [hentry, ne_eq, not_true_eq_false, if_false] at hturn
      cases hturn
      rw [freeCalls_zero (by simp [hentry]), List.append_nil]
    · simp only [hentry, ne_eq, not_false_eq_true, if_true] at hturn
      have hne : (d.u32 n).toNat ≠ 0 := toNat_eq_zero.not.mpr hentry
      simp [BlockCache.recorded_free hturn, freeCalls, hne]

variable {c : cache.Ideal} {base : Finset Nat}

/-- What `inode_clear` gives back after the direct blocks: the blocks in the indirect block, and
this one after them. -/
theorem freeIndirect_calls (h : c.recorded.Owns base inode.entry s) (hvalid : inode.valid = true)
    (hrun : freeIndirect cache.recorded inode s = .ok t) :
    t.2 = s.2 ++ freeCalls ((List.range (inodeNumIndirect + 1)).map fun i =>
      inode.entry.slot (c.mem s.1) (inodeNumDirect + i)) := by
  unfold freeIndirect at hrun
  by_cases hind : inode.entry.indirect = 0
  · rw [if_neg (by simp [hind])] at hrun
    cases hrun
    rw [freeCalls_zero, List.append_nil]
    intro b hb
    obtain ⟨i, -, rfl⟩ := List.mem_map.mp hb
    exact InodeEntry.slot_of_no_indirect (by omega) hind
  · rw [if_pos ⟨hind, hvalid⟩] at hrun
    obtain ⟨s₁, hacq, hrun⟩ := bind_eq_ok.mp hrun
    obtain ⟨s₂, hloop, hrun⟩ := bind_eq_ok.mp hrun
    obtain ⟨s₃, hrel, hfree⟩ := bind_eq_ok.mp hrun
    generalize hb : inode.entry.indirect.toNat = b at *
    obtain ⟨_, hacq', hmem₁, hused₁⟩ := c.recorded.acquire b s
    rw [hacq] at hacq'
    cases hacq'
    have h₁ : Slots numSlots (inode.entry.slot (c.mem s.1)) base (c.recorded.used s₁) := by
      rw [hused₁]
      exact h
    have hlast : inode.entry.slot (c.mem s.1) inodeMaxBlocks = b := InodeEntry.slot_last.trans hb
    have hslot : ∀ i < inodeNumIndirect, inode.entry.slot (c.mem s.1) (inodeNumDirect + i) =
        ((c.mem s.1 b).u32 i).toNat := by
      intro i hi
      rw [InodeEntry.slot_indirect hind hi, hb]
    have hentries : ∀ i < inodeNumIndirect, inode.entry.slot (c.mem s.1) (inodeNumDirect + i) =
        ((c.recorded.mem s₁ b).u32 i).toNat := by
      rw [hmem₁]
      exact hslot
    -- The list of blocks is the same in every turn, although its blocks are being freed.
    have hsame : ∀ m < inodeNumIndirect, ∀ u,
        (List.range m).foldlM (clearIndirect cache.recorded b) s₁ = .ok u →
          cache.recorded.bytes b u = .ok (c.mem s.1 b) := by
      intro m hm u hu
      obtain ⟨_, hu', -, hmem, -⟩ :=
        BlockCache.Ideal.clearIndirect_loop h₁ hlast hentries m hm.le
      rw [hu] at hu'
      cases hu'
      rw [c.recorded.bytes, hmem, hmem₁]
      rfl
    have hne : b ≠ 0 := by
      rw [← hb]
      exact toNat_eq_zero.not.mpr hind
    -- First the blocks of the list, then the block that has it.
    have hsplit : (List.range (inodeNumIndirect + 1)).map (fun i =>
        inode.entry.slot (c.mem s.1) (inodeNumDirect + i)) =
        ((List.range inodeNumIndirect).map fun i => ((c.mem s.1 b).u32 i).toNat) ++ [b] := by
      rw [List.range_succ, List.map_append]
      congr 1
      · exact List.map_congr_left fun i hi => hslot i (List.mem_range.mp hi)
      · exact congrArg (fun x => [x]) hlast
    rw [BlockCache.recorded_free hfree, BlockCache.recorded_release hrel,
      clearIndirect_loop_calls hsame hloop, BlockCache.recorded_acquire hacq, hsplit,
      freeCalls_append, List.append_assoc]
    simp [freeCalls, hne]

/-- The slots are the direct ones, the ones in the indirect block, and this one. -/
theorem ownedBlocks_split (e : InodeEntry) (mem : Disk) : (List.range numSlots).map (e.slot mem) =
    ((List.finRange inodeNumDirect).map fun i => (e.addrs i).toNat) ++
      (List.range (inodeNumIndirect + 1)).map fun i => e.slot mem (inodeNumDirect + i) := by
  have hsplit : numSlots = inodeNumDirect + (inodeNumIndirect + 1) := rfl
  rw [hsplit, List.range_add, List.map_append, List.map_map]
  refine congrArg₂ (· ++ ·) ?_ rfl
  rw [← List.map_coe_finRange_eq_range, List.map_map]
  apply List.map_congr_left
  intro i _
  have hi : i.val < 12 := i.isLt
  rw [Function.comp, InodeEntry.slot_of_lt (by unfold inodeMaxBlocks; omega),
    InodeEntry.addr_direct i.isLt]

/-- Storing the entry is one store and one sync, both of the block that the inode is in. -/
theorem inodeSync_write_calls {sb : SuperBlock} (hvalid : inode.valid = true)
    (hrun : inodeSync sb cache.recorded inode true s = .ok (inode', t)) :
    t.2 = s.2 ++ [.store (toBlockNo sb inode.inodeNo), .sync (toBlockNo sb inode.inodeNo)] := by
  obtain ⟨s₁, hacq, hrun⟩ := bind_eq_ok.mp hrun
  obtain ⟨d, -, hrun⟩ := bind_eq_ok.mp hrun
  split at hrun
  · cases hrun
  split at hrun
  · cases hrun
  rw [if_neg (by simp [hvalid]), if_pos rfl] at hrun
  obtain ⟨s₂, hset, hrun⟩ := bind_eq_ok.mp hrun
  obtain ⟨s₃, hsync, hrun⟩ := bind_eq_ok.mp hrun
  obtain ⟨s₄, hrel, hrun⟩ := bind_eq_ok.mp hrun
  cases hrun
  obtain ⟨u, -, hset⟩ := bind_eq_ok.mp hset
  cases hset
  obtain ⟨v, -, hsync⟩ := bind_eq_ok.mp hsync
  cases hsync
  rw [BlockCache.recorded_release hrel, BlockCache.recorded_acquire hacq, List.append_assoc]
  rfl

/-- `inode_clear` gives back the blocks of the inode, each once, and stores the entry. The direct
ones come first, then those of the indirect block, then this block itself. -/
theorem inodeClear_calls {sb : SuperBlock} (h : c.recorded.Loaded sb base inode s)
    (hrun : inodeClear sb cache.recorded inode s = .ok (inode', t)) :
    t.2 = s.2 ++ ((inode.entry.ownedBlocks (c.mem s.1)).map .free ++
      [.store (toBlockNo sb inode.inodeNo), .sync (toBlockNo sb inode.inodeNo)]) := by
  obtain ⟨s₁, hloop, h₁, hmem₁⟩ :=
    BlockCache.Ideal.clearDirect_loop h.owns h.valid (List.finRange inodeNumDirect)
  simp only [inodeClear, hloop, ok_bind] at hrun
  obtain ⟨s₂, hfree, hsync⟩ := bind_eq_ok.mp hrun
  have hdirect := clearDirect_loop_calls h.valid (List.nodup_finRange _) hloop
  have hindirect := freeIndirect_calls h₁ h.valid hfree
  have hvalid : (Inode.setNumBytes (Inode.setIndirect (BlockCache.Ideal.clearAddrs inode
      (List.finRange inodeNumDirect)) 0) 0).valid = true := h.valid
  have hstore := inodeSync_write_calls hvalid hsync
  -- The first loop leaves the indirect block and what is in it alone.
  have hslots : ∀ i, (BlockCache.Ideal.clearAddrs inode (List.finRange inodeNumDirect)).entry.slot
      (c.mem s₁.1) (inodeNumDirect + i) = inode.entry.slot (c.mem s.1) (inodeNumDirect + i) := by
    intro i
    have hsame : c.mem s₁.1 inode.entry.indirect.toNat = c.mem s.1 inode.entry.indirect.toNat :=
      hmem₁ _ (.inr rfl)
    unfold InodeEntry.slot InodeEntry.addr
    rw [dif_neg (by omega), dif_neg (by omega)]
    simp only [BlockCache.Ideal.clearAddrs, hsame]
  have howned : (inode.entry.ownedBlocks (c.mem s.1)).map CacheCall.free =
      freeCalls ((List.range numSlots).map (inode.entry.slot (c.mem s.1))) := rfl
  rw [howned, ownedBlocks_split, freeCalls_append]
  rw [hstore, hindirect, hdirect]
  simp only [hslots, List.append_assoc]
  rfl

end Clear

/-- A write that ends below 65536, or a truncation. Beyond that `num_bytes`, which is a `u16`, could
not hold the size. -/
def FileOp.WritesOrClears : FileOp → Prop
  | .write offset bytes => offset + bytes.length ≤ 65535
  | .read _ _ => False
  | .clear => True

namespace BlockCache.Ideal

variable {cache : BlockCache σ} {c : cache.Ideal} {base : Finset Nat} {sb : SuperBlock}
  {inode inode' : Inode}

/-- The inode is loaded after every sequence of writes and truncations that returns. By induction on
the sequence. -/
theorem Loaded.run {s t : σ} (h : c.Loaded sb base inode s) (halloc : c.AllocOr base True)
    {ops : List FileOp} (hops : ∀ op ∈ ops, op.WritesOrClears) {results : List (List UInt8)}
    (hrun : inode.run sb cache s ops = .ok (results, inode', t)) : c.Loaded sb base inode' t := by
  induction ops generalizing inode s results with
  | nil =>
    cases hrun
    exact h
  | cons op ops ih =>
    obtain ⟨⟨result, inode₁, s₁⟩, hcall, hrun⟩ := bind_eq_ok.mp hrun
    obtain ⟨⟨results', inode₂, s₂⟩, hrest, hrun⟩ := bind_eq_ok.mp hrun
    cases hrun
    refine ih ?_ (fun op' hop' => hops op' (List.mem_cons_of_mem op hop')) hrest
    have hop : op.WritesOrClears := hops op List.mem_cons_self
    cases op with
    | write offset bytes =>
      obtain ⟨⟨inode₃, s₃⟩, hwrite, hcall⟩ := bind_eq_ok.mp hcall
      cases hcall
      have hlen : offset + bytes.length ≤ 65535 := hop
      exact (h.inodeWrite halloc (by omega) hwrite).1
    | read offset count => exact hop.elim
    | clear =>
      obtain ⟨⟨inode₃, s₃⟩, hclear, hcall⟩ := bind_eq_ok.mp hcall
      cases hcall
      obtain ⟨t', hclear', hloaded, -⟩ := h.inodeClear
      rw [hclear] at hclear'
      cases hclear'
      exact hloaded

/-- The blocks of an inode are apart from each other, and are what is in use besides the blocks of
others. -/
theorem Owns.ownedBlocks {e : InodeEntry} {s : σ} (h : c.Owns base e s) :
    (e.ownedBlocks (c.mem s)).Nodup ∧
      ∀ b, b ∈ e.ownedBlocks (c.mem s) ↔ b ∈ c.used s ∧ b ∉ base := by
  constructor
  · rw [InodeEntry.ownedBlocks, List.filter_map]
    refine List.Nodup.map_on ?_ (List.nodup_range.filter _)
    intro i hi j hj heq
    obtain ⟨hi, hne⟩ := List.mem_filter.mp hi
    obtain ⟨hj, -⟩ := List.mem_filter.mp hj
    exact h.inj i (List.mem_range.mp hi) j (List.mem_range.mp hj) (by simpa using hne) heq
  · intro b
    rw [InodeEntry.ownedBlocks, List.mem_filter, List.mem_map, h.mem_used b]
    constructor
    · rintro ⟨⟨k, hk, rfl⟩, hne⟩
      have hne : e.slot (c.mem s) k ≠ 0 := by simpa using hne
      have hk := List.mem_range.mp hk
      exact ⟨.inr ⟨hne, k, hk, rfl⟩, h.apart k hk hne⟩
    · rintro ⟨hb | ⟨hne, k, hk, hslot⟩, hout⟩
      · exact absurd hb hout
      · exact ⟨⟨k, List.mem_range.mpr hk, hslot⟩, by simpa using hne⟩

/-- After any writes and truncations of a new inode, `inode_clear` gives back each block of the
inode once and no other block. It leaves an inode without blocks and bytes and otherwise unchanged,
in memory and on the disk, and the blocks in use are those from before the writes. -/
theorem inodeClear_frees_once (c : cache.Ideal)
    (hfull : ∀ s, c.pool ⊆ c.used s → ∃ e, cache.alloc s = .error e) (sb : SuperBlock) (s : σ)
    (hused : ∀ i < sb.numInodes.toNat, toBlockNo sb i ∈ c.used s) {type : UInt16} {n : Nat}
    {t : σ × List CacheCall} (halloc : inodeAlloc sb cache.recorded type (s, []) = .ok (n, t))
    (junk : InodeEntry) :
    ∃ inode u, inodeLoad sb cache.recorded n junk t = .ok (inode, u) ∧
      ∀ ops, (∀ op ∈ ops, op.WritesOrClears) → ∀ results inode' v,
        inode.run sb cache.recorded u ops = .ok (results, inode', v) →
          ∃ inode'' w, inodeClear sb cache.recorded inode' v = .ok (inode'', w) ∧
            w.2 = v.2 ++ ((inode'.entry.ownedBlocks (c.mem v.1)).map .free ++
              [.store (toBlockNo sb inode'.inodeNo), .sync (toBlockNo sb inode'.inodeNo)]) ∧
            (inode'.entry.ownedBlocks (c.mem v.1)).Nodup ∧
            (∀ b, b ∈ inode'.entry.ownedBlocks (c.mem v.1) ↔ b ∈ c.used v.1 ∧ b ∉ c.used s) ∧
            inode''.entry =
              { inode'.entry with numBytes := 0, addrs := fun _ => 0, indirect := 0 } ∧
            c.entryOf sb w.1 inode'.inodeNo = inode''.entry ∧
            c.used w.1 = c.used s := by
  obtain ⟨inode, u, hload, hrep⟩ := inodeAlloc_represents c.recorded hused halloc junk
  refine ⟨inode, u, hload, ?_⟩
  intro ops hops results inode' v hrun
  have hfull' : ∀ s, c.recorded.pool ⊆ c.recorded.used s → ∃ e, cache.recorded.alloc s = .error e := by
    intro s hs
    obtain ⟨e, he⟩ := hfull s.1 hs
    exact ⟨e, by simp only [BlockCache.recorded, he, error_bind]⟩
  have hloaded : c.recorded.Loaded sb (c.used s) inode' v :=
    hrep.loaded.run (allocOr_of_full hfull') hops hrun
  obtain ⟨w, hclear, -, husedw, hmem⟩ := hloaded.inodeClear
  have hcalls := inodeClear_calls hloaded hclear
  obtain ⟨hnodup, howned⟩ := hloaded.owns.ownedBlocks
  refine ⟨inode'.cleared, w, hclear, hcalls, hnodup, howned, rfl, ?_, husedw⟩
  have hentry : c.recorded.entryOf sb w inode'.inodeNo = inode'.cleared.entry := by
    rw [entryOf_putEntry (hmem _ hloaded.block), if_pos rfl]
  exact hentry

end BlockCache.Ideal

/-- Enough bytes for two blocks. -/
def twoBlocks (v : UInt8) : List UInt8 := List.replicate 600 v

/-- 600 bytes are more than one block. -/
theorem length_twoBlocks (v : UInt8) : (twoBlocks v).length = 600 := List.length_replicate

/-- A file of two blocks that is emptied, written again and truncated. -/
theorem inodeClear_frees_once_two : ∃ n t inode u results inode' v inode'' w,
    inodeAlloc (smallSuperBlock 20) mockCache.recorded 2 (⟨fun _ => .zero, {100}⟩, []) =
      .ok (n, t) ∧
    inodeLoad (smallSuperBlock 20) mockCache.recorded n .zero t = .ok (inode, u) ∧
    inode.run (smallSuperBlock 20) mockCache.recorded u
      [.write 0 (twoBlocks 7), .clear, .write 0 (twoBlocks 8)] =
        .ok (results, inode', v) ∧
    inodeClear (smallSuperBlock 20) mockCache.recorded inode' v = .ok (inode'', w) ∧
    mockCacheIdeal.used w.1 = {100} := by
  obtain ⟨⟨n, t⟩, halloc⟩ := exists_ok
    (x := inodeAlloc (smallSuperBlock 20) mockCache.recorded 2 (⟨fun _ => .zero, {100}⟩, []))
    (by decide +kernel)
  obtain ⟨inode, u, hload, hclear⟩ := mockCacheIdeal.inodeClear_frees_once mockCache_full
    (smallSuperBlock 20) ⟨fun _ => .zero, {100}⟩ mockCache_used halloc .zero
  -- The run returns, since the file stays small.
  obtain ⟨inode₁, u₁, hload₁, hrep⟩ := BlockCache.Ideal.inodeAlloc_represents
    mockCacheIdeal.recorded mockCache_used halloc .zero
  rw [hload] at hload₁
  cases hload₁
  have hlegal : File.LegalRun [] [.write 0 (twoBlocks 7), .clear, .write 0 (twoBlocks 8)] := by
    simp [File.LegalRun, File.Legal, File.next, length_twoBlocks]
  obtain ⟨inode', v, hrun, -⟩ := hrep.run mockCache_room hlegal
  obtain ⟨inode'', w, hclear, -, -, -, -, -, hused⟩ := hclear
    [.write 0 (twoBlocks 7), .clear, .write 0 (twoBlocks 8)]
    (by simp [FileOp.WritesOrClears, length_twoBlocks]) _ inode' v hrun
  exact ⟨n, t, inode, u, _, inode', v, inode'', w, halloc, hload, hrun, hclear, hused⟩

end KernelAarch64.Fs
