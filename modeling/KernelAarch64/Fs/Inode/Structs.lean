import KernelAarch64.Fs.Inode.Layout
import KernelAarch64.Fs.Inode.Loaded
import KernelAarch64.Lib.Follows

/-!
# The inode layer over blocks that are structs

The casts of a `Block *` in `inode.c` reach the first `BLOCK_SIZE` bytes of the struct. Of these,
`dataOffset` are members that the block cache works with (`block_no`, the list node, the lock), and
the rest are bytes of `data`, at other places than the code takes them for. `BlockCache.Structs`
says what a block cache with such blocks does: it keeps what is written to `data`, and nothing is
said of a store that changes one of its own members.

As long as no store does (`BlockCache.KeepsHeaders`), and as long as no call uses an indirect block,
whose numbers are read from those members, the calls do what they do over a cache whose blocks are
plain content (`contents`), which is a cache as `BlockCache.Ideal` describes it. The two run side by
side: `Sim` relates their states, and the lemmas about it say call by call that one follows the
other (`Follows`). `Tracks` adds that a loaded inode stays loaded on both sides. What was proved of
files over plain content holds over structs by them. -/

namespace KernelAarch64.Fs

open KernelAarch64.Lib

/-! ## Block caches with structs

`Structs` is the counterpart of `BlockCache.Ideal`. A store through a cast goes to the first 512
bytes of a struct, so it may change a member that the cache works with; what happens then is not
described, and `guarded` is the cache that stops before such a store. -/

/-- The blocks that an entry names: the direct ones, and the indirect block behind them. -/
def InodeEntry.ownBlock (e : InodeEntry) (k : Nat) : Nat :=
  if h : k < inodeNumDirect then (e.addrs ⟨k, h⟩).toNat else e.indirect.toNat

variable {σ : Type}

/-- What the inode layer can rely on if its blocks are structs. `head s b` are the members before
`data` of the struct of block `b`, and `mem s b` is its `data`. -/
structure BlockCache.Structs (cache : BlockCache σ) where
  head : σ → Nat → Nat → UInt8
  mem : σ → Disk
  used : σ → Finset Nat
  pool : Finset Nat
  pool_u32 : ∀ b ∈ pool, b ≠ 0 ∧ b < 2 ^ 32
  acquire : ∀ b s, ∃ t, cache.acquire b s = .ok t ∧ mem t = mem s ∧ used t = used s
  release : ∀ b s, ∃ t, cache.release b s = .ok t ∧ mem t = mem s ∧ used t = used s
  sync : ∀ b s, ∃ t, cache.sync b s = .ok t ∧ mem t = mem s ∧ used t = used s
  data : ∀ b s, cache.data b s = .ok (mem s b)
  setData : ∀ b d s, ∃ t, cache.setData b d s = .ok t ∧
    mem t = Function.update (mem s) b d ∧ used t = used s
  bytes : ∀ b s, cache.bytes b s = .ok (structBytes (head s b) (mem s b))
  /-- Nothing is said of a store that changes a member before `data`. -/
  setBytes : ∀ b d s, SameHeader (head s b) d → ∃ t, cache.setBytes b d s = .ok t ∧
    mem t = Function.update (mem s) b (structData (mem s b) d) ∧ used t = used s
  alloc : ∀ s, ¬ pool ⊆ used s → ∃ b t, cache.alloc s = .ok (b, t) ∧ b ∈ pool ∧ b ∉ used s ∧
    mem t = Function.update (mem s) b .zero ∧ used t = insert b (used s)
  alloc_full : ∀ s, pool ⊆ used s → ∃ e, cache.alloc s = .error e
  free : ∀ b s, b ∈ used s → ∃ t, cache.free b s = .ok t ∧ (∀ x ≠ b, mem t x = mem s x) ∧
    used t = (used s).erase b
  free_unused : ∀ b s, b ∉ used s → ∃ e, cache.free b s = .error e

namespace BlockCache

/-- The cache, except that a store through a cast stops if it would change a member before `data`.
-/
def guarded (cache : BlockCache σ) : BlockCache σ :=
  { cache with
    setBytes := fun b d s => do
      let old ← cache.bytes b s
      if SameHeader old.byte d then cache.setBytes b d s else .error .fault }

/-- No store of the call would change a member of a `Block` before `data`. -/
def KeepsHeaders {α : Type} (cache : BlockCache σ) (call : BlockCache σ → Except Stop α) : Prop :=
  call cache.guarded ≠ .error .fault

/-- A write that needs no indirect block and changes no member of a `Block` before `data`. -/
def Harmless (sb : SuperBlock) (cache : BlockCache σ) (inode : Inode) (src : List UInt8)
    (offset : Nat) (s : σ) : Prop :=
  offset + src.length < inodeNumDirect * blockSize ∧
    cache.KeepsHeaders fun cache => inodeWrite sb cache inode src offset s

/-- The cache as the functions see it that use no cast. -/
def onData (cache : BlockCache σ) : BlockCache σ :=
  { cache with bytes := cache.data, setBytes := cache.setData }

/-- The loop of `inode_alloc` uses no cast. -/
theorem inodeAllocFrom_onData (sb : SuperBlock) (cache : BlockCache σ) (type : UInt16) (n i : Nat)
    (s : σ) : inodeAllocFrom sb cache.onData type n i s = inodeAllocFrom sb cache type n i s := by
  induction n generalizing i s with
  | zero => rfl
  | succ n ih =>
    unfold inodeAllocFrom
    simp only [ih]
    rfl

theorem inodeAlloc_onData (sb : SuperBlock) (cache : BlockCache σ) (type : UInt16) (s : σ) :
    inodeAlloc sb cache.onData type s = inodeAlloc sb cache type s := by
  unfold inodeAlloc
  rw [inodeAllocFrom_onData]

/-! ## Without the guard

Where a call stops at the guard, nothing is said about it; where it does not, the guard can be left
out. `P` collects the cases in which it may be met. -/

section Guarded

variable {cache : BlockCache σ} {P : Prop}

/-- A store with the guard is a store, unless the guard is met. -/
theorem guarded_setBytes {b : Nat} {old d : BlockData} {s : σ} (h : cache.bytes b s = .ok old)
    (hP : ¬ SameHeader old.byte d → P) :
    Follows .fault P Eq (cache.guarded.setBytes b d s) (cache.setBytes b d s) := by
  simp only [guarded, h, ok_bind]
  split
  · exact Follows.refl _ _ _
  · next hchange => exact .stop (hP hchange) _

/-- Finding a direct block does not store through a cast. So the guard is not asked, and the two
caches do the same. -/
theorem guarded_inodeMap (inode : Inode) {offset : Nat} (modified : Bool) (s : σ)
    (hP : ¬ offset / blockSize < inodeNumDirect → P) :
    Follows .fault P Eq (Fs.inodeMap cache.guarded inode offset modified s)
      (Fs.inodeMap cache inode offset modified s) := by
  unfold Fs.inodeMap
  refine (Follows.refl _ _ _).bind ?_
  rintro _ _ rfl
  dsimp only
  split
  · exact Follows.refl _ _ _
  next hindirect =>
  unfold inodeMapIndirect
  refine (Follows.refl Stop.fault P (ensureIndirect cache inode modified s)).bind ?_
  rintro ⟨inode, modified, s⟩ _ rfl
  refine (Follows.refl Stop.fault P (cache.acquire _ s)).bind ?_
  rintro s _ rfl
  refine (Follows.refl Stop.fault P (cache.release _ s)).bind ?_
  rintro s _ rfl
  refine (Follows.refl Stop.fault P (cache.bytes _ s)).bind ?_
  rintro d _ rfl
  dsimp only
  split
  · exact Follows.refl _ _ _
  refine (Follows.refl Stop.fault P (cache.alloc s)).bind ?_
  rintro ⟨b, s⟩ _ rfl
  refine (Follows.refl Stop.fault P (cache.bytes _ s)).bind_of ?_
  rintro d _ hbytes rfl
  refine (guarded_setBytes hbytes fun _ => hP hindirect).bind ?_
  rintro s _ rfl
  exact Follows.refl _ _ _

/-- The loop of `inode_write`. `P` is that it needs an indirect block or writes to the place of a
header; unless this is so, the guarded cache does what the cache does. -/
theorem guarded_inodeWriteFrom {offset end' n i : Nat} {src : List UInt8} {inode : Inode}
    {modify : Bool} {s : σ} (hi : i % blockSize = 0)
    (hdirect : inodeNumDirect * blockSize < i + n * blockSize → P)
    (hplaces : ∀ p, offset ≤ p → p < end' → p % blockSize < dataOffset → P) :
    Follows .fault P Eq (Fs.inodeWriteFrom cache.guarded offset end' n i src inode modify s)
      (Fs.inodeWriteFrom cache offset end' n i src inode modify s) := by
  induction n generalizing i src inode modify s with
  | zero => exact Follows.refl _ _ _
  | succ n ih =>
    rw [Nat.succ_mul n] at hdirect
    refine (guarded_inodeMap inode modify s fun hk => hdirect ?_).bind ?_
    · unfold inodeNumDirect blockSize at *
      omega
    rintro ⟨b, inode, modify, s⟩ _ rfl
    refine (Follows.refl Stop.fault P (cache.acquire b s)).bind ?_
    rintro s _ rfl
    refine (Follows.refl Stop.fault P (cache.bytes b s)).bind_of ?_
    rintro d _ hbytes rfl
    refine (guarded_setBytes hbytes fun hchange => ?_).bind ?_
    · -- a byte of the block goes to the place of a member before `data`
      by_contra hnot
      refine hchange (sameHeader_splice fun k hle hlt hk => hnot ?_)
      rw [List.length_take] at hlt
      refine hplaces (i + k) (by omega) (by omega) ?_
      rw [Nat.add_mod, hi, Nat.zero_add, Nat.mod_mod, Nat.mod_eq_of_lt (hk.trans dataOffset_lt)]
      exact hk
    rintro s _ rfl
    refine (Follows.refl Stop.fault P (cache.release b s)).bind ?_
    rintro s _ rfl
    exact ih (by rw [Nat.add_mod_right, hi]) fun hlt => hdirect (by omega)

/-- `inode_write` over the guarded cache. `P` is that it needs an indirect block or writes to the
place of a header. -/
theorem guarded_inodeWrite (sb : SuperBlock) (inode : Inode) {src : List UInt8} {offset : Nat}
    (s : σ) (hdirect : ¬ offset + src.length < inodeNumDirect * blockSize → P)
    (hplaces : ∀ p, offset ≤ p → p < offset + src.length → p % blockSize < dataOffset → P) :
    Follows .fault P Eq (Fs.inodeWrite sb cache.guarded inode src offset s)
      (Fs.inodeWrite sb cache inode src offset s) := by
  unfold Fs.inodeWrite
  refine (Follows.refl _ _ _).bind ?_
  rintro _ _ rfl
  refine (Follows.refl _ _ _).bind ?_
  rintro _ _ rfl
  refine (Follows.refl _ _ _).bind ?_
  rintro _ _ rfl
  refine (guarded_inodeWriteFrom (BlockCache.Ideal.roundDown_spec offset).2.2 ?_ ?_).bind ?_
  · refine fun hlt => hdirect ?_
    unfold roundDown inodeNumDirect blockSize at *
    omega
  · exact fun p hle hlt => hplaces p hle (hlt.trans_le (Nat.mod_le _ _))
  rintro ⟨inode, modify, s⟩ _ rfl
  exact Follows.refl _ _ _

/-- A harmless write does not meet the guard. -/
theorem Harmless.eq_guarded {sb : SuperBlock} {inode : Inode} {src : List UInt8} {offset : Nat} {s : σ}
    (h : cache.Harmless sb inode src offset s) :
    Fs.inodeWrite sb cache.guarded inode src offset s = Fs.inodeWrite sb cache inode src offset s :=
  (guarded_inodeWrite (P := True) sb inode s (fun _ => trivial) fun _ _ _ _ => trivial).eq_of_ne h.2

end Guarded

/-! ## Plain content

The comparison is with a cache of the kind of `Fs.Inode.BlockMap`, whose state has a content of
every block beside the real state. Its stores go to both. -/

namespace Structs

variable {cache : BlockCache σ}

/-- What uses `data` alone has plain content. So the calls that do, `inode_alloc` and `inode_sync`
among them, are covered by what is proved over plain content. -/
def dataIdeal (c : cache.Structs) : cache.onData.Ideal where
  mem := c.mem
  used := c.used
  pool := c.pool
  pool_u32 := c.pool_u32
  acquire := c.acquire
  release := c.release
  sync := c.sync
  data := c.data
  setData := c.setData
  bytes := c.data
  setBytes := c.setData
  alloc := c.alloc
  free := c.free

/-- A block that `free` takes was in use, and is not afterwards. -/
theorem used_free (c : cache.Structs) {b : Nat} {s t : σ} (h : cache.free b s = .ok t) :
    b ∈ c.used s ∧ c.used t = (c.used s).erase b := by
  have hused : b ∈ c.used s := by
    by_contra hnot
    obtain ⟨e, herr⟩ := c.free_unused b s hnot
    rw [herr] at h
    cases h
  obtain ⟨t', hcall, -, hused'⟩ := c.free b s hused
  rw [hcall] at h
  cases h
  exact ⟨hused, hused'⟩

/-- What the casts of `inode.c` take for the content of the blocks. -/
def castMem (c : cache.Structs) (s : σ) : Disk := fun b => structBytes (c.head s b) (c.mem s b)

/-- The block cache with plain content beside it: the content of every block is what the inode layer
takes for it, and the struct gets its own header with every store. -/
def contents (c : cache.Structs) : BlockCache (σ × Disk) where
  acquire b g := (cache.acquire b g.1).map (·, g.2)
  release b g := (cache.release b g.1).map (·, g.2)
  sync b g := (cache.sync b g.1).map (·, g.2)
  alloc g := (cache.alloc g.1).map fun r => (r.1, r.2, Function.update g.2 r.1 .zero)
  free b g := (cache.free b g.1).map fun t =>
    (t, Function.update g.2 b (structBytes (c.head t b) (c.mem t b)))
  data b g := .ok (g.2 b)
  setData b d g := (cache.setData b d g.1).map (·, Function.update g.2 b d)
  bytes b g := .ok (g.2 b)
  setBytes b d g := (cache.setBytes b (withHeader (c.head g.1 b) d) g.1).map
    (·, Function.update g.2 b d)

/-- Plain content is what a file needs of a block cache: it is the content that the casts show, with
the calls of the cache behind it. -/
def contentsIdeal (c : cache.Structs) : c.contents.Ideal where
  mem g := g.2
  used g := c.used g.1
  pool := c.pool
  pool_u32 := c.pool_u32
  acquire b g := by
    obtain ⟨t, h, -, hused⟩ := c.acquire b g.1
    exact ⟨(t, g.2), congrArg (Except.map (·, g.2)) h, rfl, hused⟩
  release b g := by
    obtain ⟨t, h, -, hused⟩ := c.release b g.1
    exact ⟨(t, g.2), congrArg (Except.map (·, g.2)) h, rfl, hused⟩
  sync b g := by
    obtain ⟨t, h, -, hused⟩ := c.sync b g.1
    exact ⟨(t, g.2), congrArg (Except.map (·, g.2)) h, rfl, hused⟩
  data _ _ := rfl
  setData b d g := by
    obtain ⟨t, h, -, hused⟩ := c.setData b d g.1
    exact ⟨(t, Function.update g.2 b d), congrArg (Except.map (·, Function.update g.2 b d)) h, rfl,
      hused⟩
  bytes _ _ := rfl
  setBytes b d g := by
    obtain ⟨t, h, -, hused⟩ := c.setBytes b _ g.1 (sameHeader_withHeader (c.head g.1 b) d)
    exact ⟨(t, Function.update g.2 b d), congrArg (Except.map (·, Function.update g.2 b d)) h, rfl,
      hused⟩
  alloc g hfree := by
    obtain ⟨b, t, h, hpool, hb, -, hused⟩ := c.alloc g.1 hfree
    exact ⟨b, (t, Function.update g.2 b .zero), by simp only [contents, h, Except.map], hpool, hb, rfl,
      hused⟩
  free b g hb := by
    obtain ⟨t, h, -, hused⟩ := c.free b g.1 hb
    refine ⟨_, congrArg (Except.map _) h, ?_, hused⟩
    exact fun x hx => Function.update_of_ne hx ..

/-- `alloc` fails when no block is free. -/
theorem contents_full (c : cache.Structs) (g : σ × Disk)
    (h : c.contentsIdeal.pool ⊆ c.contentsIdeal.used g) : ∃ e, c.contents.alloc g = .error e := by
  obtain ⟨e, herr⟩ := c.alloc_full g.1 h
  exact ⟨e, by simp only [contents, herr, Except.map]⟩

/-! ## Structs and plain content side by side

`Sim` is the simulation relation. It says nothing about the blocks of `J`, which is where the
indirect block is: its addresses are read from the header, so it has to be kept out. -/

/-- The structs and the plain content agree: in `data` for the blocks `I`, which store inodes, and
behind the header for the others, which hold files, except for the blocks `J`. -/
structure Sim (c : cache.Structs) (I J : Set Nat) (s : σ) (g : σ × Disk) : Prop where
  state : g.1 = s
  inodes : ∀ b ∈ I, g.2 b = c.mem s b
  files : ∀ b, b ∉ I → b ∉ J → ∀ k, dataOffset ≤ k → k < blockSize →
    (g.2 b).byte k = (c.mem s b).byte (k - dataOffset)

/-- What the inode layer takes for the content of the blocks of state `s`. -/
def view (c : cache.Structs) (I J : Set Nat) [DecidablePred (· ∈ I)] [DecidablePred (· ∈ J)] (s : σ) :
    Disk := fun b =>
  if b ∈ I then c.mem s b else if b ∈ J then .zero else c.castMem s b

/-- Such a content exists beside every state. -/
theorem sim_view (c : cache.Structs) (I J : Set Nat) [DecidablePred (· ∈ I)]
    [DecidablePred (· ∈ J)] (s : σ) : c.Sim I J s (s, c.view I J s) := by
  refine ⟨rfl, fun b hb => if_pos hb, ?_⟩
  intro b hI hJ k hk hlt
  simp only [view, if_neg hI, if_neg hJ]
  exact byte_structBytes hk hlt

variable {c : cache.Structs} {I J : Set Nat} {s t : σ} {g : σ × Disk} {b : Nat} {P : Prop}

theorem Sim.of_eq (h : c.Sim I J s g) (hmem : c.mem t = c.mem s) : c.Sim I J t (t, g.2) :=
  ⟨rfl, fun b hb => by rw [hmem]; exact h.inodes b hb, fun b hI hJ => by rw [hmem]; exact h.files b hI hJ⟩

/-- A block gets the same content on both sides: an inode block as it is, and a file block moved by
the size of the header. -/
theorem Sim.update (h : c.Sim I J s g) {d d' : BlockData}
    (hmem : c.mem t = Function.update (c.mem s) b d') (hI : b ∈ I → d = d')
    (hfile : b ∉ I → b ∉ J → ∀ k, dataOffset ≤ k → k < blockSize →
      d.byte k = d'.byte (k - dataOffset)) :
    c.Sim I J t (t, Function.update g.2 b d) := by
  refine ⟨rfl, ?_, ?_⟩
  · intro x hx
    show Function.update g.2 b d x = _
    rw [hmem]
    by_cases hxb : x = b
    · subst hxb
      rw [Function.update_self, Function.update_self, hI hx]
    · rw [Function.update_of_ne hxb, Function.update_of_ne hxb, h.inodes x hx]
  · intro x hxI hxJ
    show ∀ k, _ → _ → (Function.update g.2 b d x).byte k = _
    rw [hmem]
    by_cases hxb : x = b
    · subst hxb
      rw [Function.update_self, Function.update_self]
      exact hfile hxI hxJ
    · rw [Function.update_of_ne hxb, Function.update_of_ne hxb]
      exact h.files x hxI hxJ

theorem Sim.acquire (h : c.Sim I J s g) (b : Nat) :
    Follows .fault P (c.Sim I J) (cache.guarded.acquire b s) (c.contents.acquire b g) := by
  obtain ⟨t, hcall, hmem, -⟩ := c.acquire b s
  simp only [guarded, contents, h.state, hcall, Except.map]
  exact .ok (h.of_eq hmem)

theorem Sim.release (h : c.Sim I J s g) (b : Nat) :
    Follows .fault P (c.Sim I J) (cache.guarded.release b s) (c.contents.release b g) := by
  obtain ⟨t, hcall, hmem, -⟩ := c.release b s
  simp only [guarded, contents, h.state, hcall, Except.map]
  exact .ok (h.of_eq hmem)

theorem Sim.sync (h : c.Sim I J s g) (b : Nat) :
    Follows .fault P (c.Sim I J) (cache.guarded.sync b s) (c.contents.sync b g) := by
  obtain ⟨t, hcall, hmem, -⟩ := c.sync b s
  simp only [guarded, contents, h.state, hcall, Except.map]
  exact .ok (h.of_eq hmem)

/-- An inode block has the same content on both sides. -/
theorem Sim.data (h : c.Sim I J s g) (hb : b ∈ I) :
    Follows .fault P Eq (cache.guarded.data b s) (c.contents.data b g) := by
  simp only [guarded, contents, c.data, h.inodes b hb]
  exact .ok rfl

/-- An assignment to the `data` of an inode block is the same on both sides. -/
theorem Sim.setData (h : c.Sim I J s g) (hb : b ∈ I) (d : BlockData) :
    Follows .fault P (c.Sim I J) (cache.guarded.setData b d s) (c.contents.setData b d g) := by
  obtain ⟨t, hcall, hmem, -⟩ := c.setData b d s
  simp only [guarded, contents, h.state, hcall, Except.map]
  exact .ok (h.update hmem (fun _ => rfl) fun hI => absurd hb hI)

/-- `alloc` returns the same block, or fails on both sides. -/
theorem Sim.alloc (h : c.Sim I J s g) : Follows .fault P (Beside (c.Sim I J))
    (cache.guarded.alloc s) (c.contents.alloc g) := by
  simp only [guarded, contents, h.state]
  cases hcall : cache.alloc s with
  | error e => exact .error e
  | ok r =>
    obtain ⟨b, t⟩ := r
    have hfree : ¬ c.pool ⊆ c.used s := by
      intro hfull
      obtain ⟨e, herr⟩ := c.alloc_full s hfull
      rw [herr] at hcall
      cases hcall
    obtain ⟨b', t', hcall', -, -, hmem, -⟩ := c.alloc s hfree
    rw [hcall'] at hcall
    cases hcall
    refine .ok ⟨rfl, h.update hmem (fun _ => rfl) ?_⟩
    intro _ _ k _ hlt
    rw [BlockData.byte_of_lt _ hlt, BlockData.byte_of_lt _ (Nat.lt_of_le_of_lt (Nat.sub_le _ _) hlt)]
    rfl

/-- `free` of a block that holds no inodes. Both caches take it from the blocks in use, and neither
changes what is in another block. -/
theorem Sim.free (h : c.Sim I J s g) (hb : b ∉ I) :
    Follows .fault P (c.Sim I J) (cache.guarded.free b s) (c.contents.free b g) := by
  simp only [guarded, contents, h.state]
  cases hcall : cache.free b s with
  | error e => exact .error e
  | ok t =>
    have hused : b ∈ c.used s := by
      by_contra hnot
      obtain ⟨e, herr⟩ := c.free_unused b s hnot
      rw [herr] at hcall
      cases hcall
    obtain ⟨t', hcall', hmem, -⟩ := c.free b s hused
    rw [hcall'] at hcall
    cases hcall
    have hmem : c.mem t = Function.update (c.mem s) b (c.mem t b) := by
      funext x
      by_cases hxb : x = b
      · rw [hxb, Function.update_self]
      · rw [Function.update_of_ne hxb, hmem x hxb]
    exact .ok (h.update hmem (fun hI => absurd hI hb) fun _ _ k hk hlt => byte_structBytes hk hlt)

/-- A `memcpy` to a data block of a file stops if it would change the header, and otherwise has the
same effect on the struct as on plain content. -/
theorem Sim.store (h : c.Sim I J s g) (hI : b ∉ I) (hJ : b ∉ J) (start : Nat) (src : List UInt8)
    (hP : ∀ k, start ≤ k → k < start + src.length → k < dataOffset → P) :
    Follows .fault P (c.Sim I J)
      (cache.guarded.setBytes b ((structBytes (c.head s b) (c.mem s b)).splice start src) s)
      (c.contents.setBytes b ((g.2 b).splice start src) g) := by
  have hsplice : ∀ (d : BlockData) {k}, k < blockSize → (d.splice start src).byte k =
      if start ≤ k ∧ k < start + src.length then src.getD (k - start) 0 else d.byte k :=
    fun d _ hk => BlockData.byte_splice d start src hk
  generalize hnew : (structBytes (c.head s b) (c.mem s b)).splice start src = new
  by_cases hsame : SameHeader (structBytes (c.head s b) (c.mem s b)).byte new
  · -- both sides store, and the content gets the header that is there
    have hheader : SameHeader (c.head s b) new := fun k hk =>
      (hsame k hk).trans (byte_structBytes_head hk)
    have hbytes : ∀ k, dataOffset ≤ k → k < blockSize →
        ((g.2 b).splice start src).byte k = new.byte k := by
      intro k hk hlt
      rw [← hnew, hsplice _ hlt, hsplice _ hlt, h.files b hI hJ k hk hlt, byte_structBytes hk hlt]
    have hstore : withHeader (c.head s b) ((g.2 b).splice start src) = new := by
      funext ⟨k, hlt⟩
      rw [withHeader, ← BlockData.byte_of_lt new hlt]
      split
      · next hk => exact (hheader k hk).symm
      · next hk => exact (BlockData.byte_of_lt _ hlt).symm.trans (hbytes k (Nat.not_lt.mp hk) hlt)
    obtain ⟨t, hcall, hmem, -⟩ := c.setBytes b new s hheader
    simp only [guarded, contents, c.bytes, ok_bind, if_pos hsame, h.state, hstore, hcall, Except.map]
    refine .ok (h.update hmem (fun hin => absurd hin hI) ?_)
    intro _ _ k hk hlt
    rw [hbytes k hk hlt, byte_structData hk hlt]
  · have hstop : P := by
      by_contra hno
      refine hsame ?_
      rw [← hnew]
      exact sameHeader_splice fun k hle hlt hk => hno (hP k hle hlt hk)
    simp only [guarded, c.bytes, ok_bind, if_neg hsame]
    exact .stop hstop _

/-! ## Calls side by side

One lemma for each function of the inode layer that writes, from the lemmas about the calls of the
cache. The loop is by induction over its turns. -/

variable {sb : SuperBlock} {base : Finset Nat} {inode inode' : Inode}

/-- `inode_map` of a direct block uses no cast, so that it does the same on both sides. -/
theorem Sim.inodeMap (h : c.Sim I J s g) (inode : Inode) {offset : Nat}
    (hk : offset / blockSize < inodeNumDirect) (modified : Bool) :
    Follows .fault P (Beside (Beside (Beside (c.Sim I J))))
      (inodeMap cache.guarded inode offset modified s)
      (Fs.inodeMap c.contents inode offset modified g) := by
  unfold Fs.inodeMap
  refine (Follows.refl Stop.fault P _).bind fun _ _ _ => ?_
  simp only [dif_pos hk]
  unfold inodeMapDirect
  split
  · exact .ok ⟨rfl, rfl, rfl, h⟩
  · refine h.alloc.bind ?_
    rintro ⟨b, s⟩ ⟨_, g⟩ ⟨rfl, h⟩
    exact .ok ⟨rfl, rfl, rfl, h⟩

/-- `inode_sync` reads and stores through `block->data`, not through a cast, and its block has the
same content on both sides. -/
theorem Sim.inodeSync (h : c.Sim I J s g) (hI : toBlockNo sb inode.inodeNo ∈ I) (doWrite : Bool) :
    Follows .fault P (Beside (c.Sim I J)) (inodeSync sb cache.guarded inode doWrite s)
      (Fs.inodeSync sb c.contents inode doWrite g) := by
  unfold Fs.inodeSync
  refine (h.acquire _).bind fun s g h => ?_
  refine (h.data hI).bind ?_
  rintro d _ rfl
  split_ifs
  · exact .error _
  · exact .error _
  · refine (h.release _).bind fun s g h => ?_
    exact .ok ⟨rfl, h⟩
  · refine (h.setData hI _).bind fun s g h => ?_
    refine (h.sync _).bind fun s g h => ?_
    refine (h.release _).bind fun s g h => ?_
    exact .ok ⟨rfl, h⟩
  · refine (h.release _).bind fun s g h => ?_
    exact .ok ⟨rfl, h⟩

/-- The mapping of a direct block leaves the indirect block alone. -/
theorem indirect_inodeMap {cache : BlockCache σ} {offset b : Nat} {modified modified' : Bool} {s t : σ}
    (hk : offset / blockSize < inodeNumDirect)
    (h : Fs.inodeMap cache inode offset modified s = .ok (b, inode', modified', t)) :
    inode'.entry.indirect = inode.entry.indirect := by
  obtain ⟨_, -, h⟩ := bind_eq_ok.mp h
  simp only [dif_pos hk] at h
  unfold inodeMapDirect at h
  split at h
  · cases h
    rfl
  · obtain ⟨r, -, h⟩ := bind_eq_ok.mp h
    cases h
    rfl

/-- `acquire` leaves the plain content. -/
theorem contents_acquire {g g' : σ × Disk} (h : c.contents.acquire b g = .ok g') :
    g'.2 = g.2 ∧ c.used g'.1 = c.used g.1 := by
  obtain ⟨t, hcall, hmem, hused⟩ := c.contentsIdeal.acquire b g
  rw [hcall] at h
  cases h
  exact ⟨hmem, hused⟩

/-- `release` leaves the plain content. -/
theorem contents_release {g g' : σ × Disk} (h : c.contents.release b g = .ok g') :
    g'.2 = g.2 ∧ c.used g'.1 = c.used g.1 := by
  obtain ⟨t, hcall, hmem, hused⟩ := c.contentsIdeal.release b g
  rw [hcall] at h
  cases h
  exact ⟨hmem, hused⟩

/-- A store changes the plain content of its block. -/
theorem contents_setBytes {g g' : σ × Disk} {d : BlockData}
    (h : c.contents.setBytes b d g = .ok g') :
    g'.2 = Function.update g.2 b d ∧ c.used g'.1 = c.used g.1 := by
  obtain ⟨t, hcall, hmem, hused⟩ := c.contentsIdeal.setBytes b d g
  rw [hcall] at h
  cases h
  exact ⟨hmem, hused⟩

/-- Nor does the loop of `inode_write`, as long as it stays in the direct blocks. -/
theorem indirect_inodeWriteFrom {cache : BlockCache σ} {offset end' n i : Nat} {src : List UInt8}
    {modify modify' : Bool} {s t : σ} (hi : i % blockSize = 0)
    (hdirect : i + n * blockSize ≤ inodeNumDirect * blockSize)
    (h : Fs.inodeWriteFrom cache offset end' n i src inode modify s = .ok (inode', modify', t)) :
    inode'.entry.indirect = inode.entry.indirect := by
  induction n generalizing i src inode modify s with
  | zero =>
    cases h
    rfl
  | succ n ih =>
    rw [Nat.succ_mul] at hdirect
    obtain ⟨b, inode₁, m₁, s₁, s₂, d, s₃, s₄, hmap, -, -, -, -, hrest⟩ := inodeWriteFrom_succ h
    have hk : i / blockSize < inodeNumDirect := by
      unfold inodeNumDirect blockSize at *
      omega
    rw [ih (by rw [Nat.add_mod_right, hi]) (by omega) hrest, indirect_inodeMap hk hmap]

/-- `inode_sync` of a valid inode does not change it, whether it stores the entry or does nothing.
-/
theorem eq_of_inodeSync {cache : BlockCache σ} {doWrite : Bool} {s t : σ} (hvalid : inode.valid = true)
    (h : Fs.inodeSync sb cache inode doWrite s = .ok (inode', t)) : inode' = inode := by
  obtain ⟨s₁, -, h⟩ := bind_eq_ok.mp h
  obtain ⟨d, -, h⟩ := bind_eq_ok.mp h
  rw [if_neg (show ¬ inode.valid = false by rw [hvalid]; decide)] at h
  split_ifs at h
  · obtain ⟨s₂, -, h⟩ := bind_eq_ok.mp h
    obtain ⟨s₃, -, h⟩ := bind_eq_ok.mp h
    obtain ⟨s₄, -, h⟩ := bind_eq_ok.mp h
    cases h
    rfl
  · obtain ⟨s₂, -, h⟩ := bind_eq_ok.mp h
    cases h
    rfl

/-- Nor does `inode_write`, as long as it stays in the direct blocks. The turn for the block of
`end` counts here too. -/
theorem indirect_inodeWrite {cache : BlockCache σ} {offset : Nat} {src : List UInt8} {s t : σ}
    (hvalid : inode.valid = true) (hdirect : offset + src.length < inodeNumDirect * blockSize)
    (h : Fs.inodeWrite sb cache inode src offset s = .ok (inode', t)) :
    inode'.entry.indirect = inode.entry.indirect := by
  have hlen : src.length < 2 ^ 64 := by
    unfold inodeNumDirect blockSize at hdirect
    omega
  obtain ⟨-, inode₁, modify, s₁, hloop, hrest⟩ := inodeWrite_eq_ok hlen h
  have hturns : roundDown offset +
      ((offset + src.length - roundDown offset) / blockSize + 1) * blockSize ≤
        inodeNumDirect * blockSize := by
    unfold roundDown inodeNumDirect blockSize at *
    omega
  have hind := indirect_inodeWriteFrom (BlockCache.Ideal.roundDown_spec offset).2.2 hturns hloop
  have hvalid₁ : inode₁.valid = true :=
    (inodeWriteFrom_remapped (I := fun _ => True) hloop).1.grows.valid.trans hvalid
  split at hrest
  · generalize hsized : inode₁.setNumBytes _ = inode₂ at hrest
    have hvalid₂ : inode₂.valid = true := by
      rw [← hsized]
      exact hvalid₁
    rw [eq_of_inodeSync hvalid₂ hrest, ← hsized]
    exact hind
  · cases hrest
    exact hind

/-- The loop of `inode_write`, over direct blocks. `P` is that it writes to the place of a header.
By induction on the turns to go, with `Sim.store` for the copy of each turn. -/
theorem Sim.inodeWriteFrom (h : c.Sim I J s g) {offset end' n i : Nat} {src : List UInt8}
    {modify : Bool} (hI : ∀ b ∈ I, b ∈ base) (hJ : ∀ b ∈ J, b = 0 ∨ b = inode.entry.indirect.toNat)
    (howns : c.contentsIdeal.Owns base inode.entry g) (hi : i % blockSize = 0)
    (hdirect : i + n * blockSize ≤ inodeNumDirect * blockSize)
    (hP : ∀ p, offset ≤ p → p < end' → p % blockSize < dataOffset → P) :
    Follows .fault P (Beside (Beside (c.Sim I J)))
      (Fs.inodeWriteFrom cache.guarded offset end' n i src inode modify s)
      (Fs.inodeWriteFrom c.contents offset end' n i src inode modify g) := by
  induction n generalizing i src inode modify s g with
  | zero => exact .ok ⟨rfl, rfl, h⟩
  | succ n ih =>
    rw [Nat.succ_mul] at hdirect
    have hk : i / blockSize < inodeNumDirect := by
      unfold inodeNumDirect blockSize at *
      omega
    have hmax : i < inodeMaxBytes := by
      rw [inodeMaxBytes_eq]
      unfold inodeNumDirect blockSize at *
      omega
    have hblock : i / blockSize < inodeMaxBlocks := div_lt_inodeMaxBlocks hmax
    refine (h.inodeMap inode hk modify).bind_of ?_
    rintro ⟨b, inode₁, m₁, s₁⟩ ⟨_, _, _, g₁⟩ hmap ⟨rfl, rfl, rfl, h₁⟩
    -- the block is one of the file
    have hcases := BlockCache.Ideal.inodeMap_cases howns
      (BlockCache.Ideal.allocOr_of_full c.contents_full) hmax modify
    rw [hmap] at hcases
    obtain ⟨_, _, _, _, heq, hmapped, -, -⟩ | ⟨-, _, hfail⟩ := hcases
    swap
    · cases hfail
    cases heq
    dsimp only at hmapped hmap ⊢
    have hne : inode₁.entry.addr g₁.2 (i / blockSize) ≠ 0 := hmapped.addr.trans_ne hmapped.ne_zero
    have hbI : b ∉ I := by
      intro hb
      exact hmapped.owns.addr_notMem_base hblock hne (hmapped.addr ▸ hI b hb)
    have hind := indirect_inodeMap hk hmap
    have hbJ : b ∉ J := by
      intro hb
      rcases hJ b hb with hzero | heq
      · exact hmapped.ne_zero hzero
      · exact hmapped.owns.addr_ne_indirect hblock hne (by rw [hind, ← heq]; exact hmapped.addr)
    refine (h₁.acquire b).bind_of fun s₂ g₂ hacq h₂ => ?_
    obtain ⟨hmem₂, hused₂⟩ := contents_acquire hacq
    have hbytes : cache.guarded.bytes b s₂ = .ok (structBytes (c.head s₂ b) (c.mem s₂ b)) := c.bytes b s₂
    have hcontent : c.contents.bytes b g₂ = .ok (g₂.2 b) := rfl
    simp only [hbytes, hcontent, ok_bind]
    refine (h₂.store hbI hbJ _ _ ?_).bind_of fun s₃ g₃ hset h₃ => ?_
    · intro j hle hlt hj
      rw [List.length_take] at hlt
      refine hP (i + j) (by omega) (by omega) ?_
      rw [Nat.add_mod, hi, Nat.zero_add, Nat.mod_mod, Nat.mod_eq_of_lt (hj.trans dataOffset_lt)]
      exact hj
    obtain ⟨hmem₃, hused₃⟩ := contents_setBytes hset
    refine (h₃.release b).bind_of fun s₄ g₄ hrel h₄ => ?_
    obtain ⟨hmem₄, hused₄⟩ := contents_release hrel
    rw [← hmem₄, hmem₂, ← hmapped.addr] at hmem₃
    have howns₄ := (hmapped.owns.write hblock hne hmem₃ (hused₄.trans (hused₃.trans hused₂))).1
    exact ih h₄ (by rwa [hind]) howns₄ (by rw [Nat.add_mod_right, hi]) (by omega)

/-- `inode_write` of bytes that all go to direct blocks: the loop, and then the entry, which goes
through `data` and is no cast. -/
theorem Sim.inodeWrite (h : c.Sim I J s g) {offset : Nat} {src : List UInt8}
    (hblock : toBlockNo sb inode.inodeNo ∈ I) (hI : ∀ b ∈ I, b ∈ base)
    (hJ : ∀ b ∈ J, b = 0 ∨ b = inode.entry.indirect.toNat)
    (howns : c.contentsIdeal.Owns base inode.entry g)
    (hdirect : offset + src.length < inodeNumDirect * blockSize)
    (hP : ∀ p, offset ≤ p → p < offset + src.length → p % blockSize < dataOffset → P) :
    Follows .fault P (Beside (c.Sim I J)) (inodeWrite sb cache.guarded inode src offset s)
      (Fs.inodeWrite sb c.contents inode src offset g) := by
  have hmod : (offset + src.length) % 2 ^ 64 = offset + src.length := by
    unfold inodeNumDirect blockSize at hdirect
    omega
  unfold Fs.inodeWrite
  simp only [hmod]
  refine (Follows.refl Stop.fault P _).bind fun _ _ _ => ?_
  refine (Follows.refl Stop.fault P _).bind fun _ _ _ => ?_
  refine (Follows.refl Stop.fault P _).bind fun _ _ _ => ?_
  refine (h.inodeWriteFrom hI hJ howns (BlockCache.Ideal.roundDown_spec offset).2.2 ?_ hP).bind_of ?_
  · unfold roundDown inodeNumDirect blockSize at *
    omega
  rintro ⟨inode₁, modify, s₁⟩ ⟨_, _, g₁⟩ hloop ⟨rfl, rfl, h₁⟩
  have hno := (inodeWriteFrom_remapped (I := fun _ => True) hloop).1.grows.inodeNo
  dsimp only at hno ⊢
  split
  · refine h₁.inodeSync ?_ true
    show toBlockNo sb inode₁.inodeNo ∈ I
    rwa [hno]
  · exact .ok ⟨rfl, h₁⟩

/-- `inode_clear` of an inode without an indirect block. It frees blocks and stores the entry, so no
cast is used. -/
theorem Sim.inodeClear (h : c.Sim I J s g) (hblock : toBlockNo sb inode.inodeNo ∈ I)
    (hind : inode.entry.indirect = 0)
    (haddrs : ∀ k, inode.entry.addrs k ≠ 0 → (inode.entry.addrs k).toNat ∉ I) :
    Follows .fault P (Beside (c.Sim I J)) (inodeClear sb cache.guarded inode s)
      (Fs.inodeClear sb c.contents inode g) := by
  -- an address is empty once its block was freed
  let R (r : Inode × σ) (r' : Inode × σ × Disk) : Prop :=
    Beside (c.Sim I J) r r' ∧ r.1.inodeNo = inode.inodeNo ∧ r.1.entry.indirect = 0 ∧
      ∀ k, r.1.entry.addrs k ≠ 0 → (r.1.entry.addrs k).toNat ∉ I
  have hstart : R (inode, s) (inode, g) := ⟨⟨rfl, h⟩, rfl, hind, haddrs⟩
  unfold Fs.inodeClear
  refine (Follows.foldlM (R := R) hstart ?_).bind ?_
  · rintro k - ⟨inode₁, s₁⟩ ⟨_, g₁⟩ ⟨⟨rfl, h₁⟩, hno, hind₁, haddrs₁⟩
    unfold clearDirect
    dsimp only at h₁ hno hind₁ haddrs₁ ⊢
    have hclear : ∀ j, (inode₁.setAddr k 0).entry.addrs j ≠ 0 →
        ((inode₁.setAddr k 0).entry.addrs j).toNat ∉ I := by
      intro j
      show Function.update inode₁.entry.addrs k 0 j ≠ 0 → (Function.update inode₁.entry.addrs k 0 j).toNat ∉ I
      by_cases hj : j = k
      · rw [hj, Function.update_self]
        exact fun hne => absurd rfl hne
      · rw [Function.update_of_ne hj]
        exact haddrs₁ j
    split
    · next hne =>
      split
      · refine (h₁.free (haddrs₁ k hne)).bind fun s₂ g₂ h₂ => ?_
        exact .ok ⟨⟨rfl, h₂⟩, hno, hind₁, hclear⟩
      · exact .ok ⟨⟨rfl, h₁⟩, hno, hind₁, hclear⟩
    · exact .ok ⟨⟨rfl, h₁⟩, hno, hind₁, haddrs₁⟩
  · rintro ⟨inode₁, s₁⟩ ⟨_, g₁⟩ ⟨⟨rfl, h₁⟩, hno, hind₁, -⟩
    dsimp only at h₁ hno hind₁ ⊢
    have hkeep : ¬ (inode₁.entry.indirect ≠ 0 ∧ inode₁.valid = true) := fun hne => hne.1 hind₁
    unfold freeIndirect
    rw [if_neg hkeep, if_neg hkeep]
    refine h₁.inodeSync ?_ true
    show toBlockNo sb inode₁.inodeNo ∈ I
    rwa [hno]

/-- `inode_write` does what it does over plain content, if it needs no indirect block and changes no
member of a `Block` before `data`. -/
theorem Sim.harmless (h : c.Sim I J s g) {offset : Nat} {src : List UInt8}
    (hblock : toBlockNo sb inode.inodeNo ∈ I) (hI : ∀ b ∈ I, b ∈ base)
    (hJ : ∀ b ∈ J, b = 0 ∨ b = inode.entry.indirect.toNat)
    (howns : c.contentsIdeal.Owns base inode.entry g)
    (hharmless : cache.Harmless sb inode src offset s) :
    Follows .fault False (Beside (c.Sim I J)) (Fs.inodeWrite sb cache inode src offset s)
      (Fs.inodeWrite sb c.contents inode src offset g) := by
  rw [← hharmless.eq_guarded]
  exact (h.inodeWrite hblock hI hJ howns hharmless.1 fun _ _ _ _ => trivial).of_ne hharmless.2

/-- A write to no place of a member before `data` is harmless if it returns over plain content. -/
theorem Sim.harmless_of_places (h : c.Sim I J s g) {offset : Nat} {src : List UInt8}
    (hblock : toBlockNo sb inode.inodeNo ∈ I) (hI : ∀ b ∈ I, b ∈ base)
    (hJ : ∀ b ∈ J, b = 0 ∨ b = inode.entry.indirect.toNat)
    (howns : c.contentsIdeal.Owns base inode.entry g)
    (hdirect : offset + src.length < inodeNumDirect * blockSize)
    (hplaces : ∀ p, offset ≤ p → p < offset + src.length → dataOffset ≤ p % blockSize)
    (hok : ∃ r, Fs.inodeWrite sb c.contents inode src offset g = .ok r) :
    cache.Harmless sb inode src offset s := by
  obtain ⟨r, hok⟩ := hok
  have hfollows := h.inodeWrite (P := False) hblock hI hJ howns hdirect fun p hle hlt hp =>
    absurd hp (Nat.not_lt.mpr (hplaces p hle hlt))
  rw [hok] at hfollows
  obtain ⟨_, hrun, -⟩ := hfollows.ok_of_not id
  refine ⟨hdirect, fun hfault => ?_⟩
  cases hrun.symm.trans hfault

/-! ## Inodes

`Loaded` is an inode in memory over structs, and `Tracks` the same with plain content beside it over
which the inode is loaded as well. Every result about plain content comes back through `Tracks`. -/

/-- The stored entry of inode `n`. -/
def entryOf (c : cache.Structs) (sb : SuperBlock) (s : σ) (n : Nat) : InodeEntry :=
  getEntry (c.mem s (toBlockNo sb n)) n

/-- A valid inode in memory. Its direct blocks and its indirect block are its own; `base` are the
other blocks in use, among them the one that stores the inode. -/
structure Loaded (c : cache.Structs) (sb : SuperBlock) (base : Finset Nat) (inode : Inode) (s : σ) :
    Prop where
  owns : Slots (inodeNumDirect + 1) inode.entry.ownBlock base (c.used s)
  valid : inode.valid = true
  inodeNo : 0 < inode.inodeNo ∧ inode.inodeNo < sb.numInodes.toNat
  block : toBlockNo sb inode.inodeNo ∈ base
  type : inode.entry.type ≠ inodeInvalid
  stored : (c.entryOf sb s inode.inodeNo).type ≠ inodeInvalid

/-- Where the indirect block is empty, the file has no other blocks than those that its entry names,
which are its direct blocks and the indirect one. -/
theorem slots_of_ownBlock {e : InodeEntry} {mem : Disk} {used : Finset Nat}
    (h : Slots (inodeNumDirect + 1) e.ownBlock base used)
    (hmem : e.indirect ≠ 0 → mem e.indirect.toNat = .zero) :
    Slots numSlots (e.slot mem) base used := by
  refine h.embed (fun j => if j < inodeNumDirect then j else inodeMaxBlocks) ?_ ?_
  · intro j hj
    unfold InodeEntry.ownBlock
    split
    · next hlt =>
      have hmax : j < inodeMaxBlocks := by
        unfold inodeMaxBlocks
        omega
      exact ⟨Nat.lt_succ_of_lt hmax, (InodeEntry.slot_of_lt hmax).trans (InodeEntry.addr_direct hlt)⟩
    · exact ⟨Nat.lt_succ_self _, InodeEntry.slot_last⟩
  · intro k hk hne
    by_cases hlt : k < inodeNumDirect
    · exact ⟨k, Nat.lt_succ_of_lt hlt, if_pos hlt⟩
    · refine ⟨inodeNumDirect, Nat.lt_succ_self _, ?_⟩
      rw [if_neg (Nat.lt_irrefl _)]
      by_contra hlast
      have hmax : k < inodeMaxBlocks := Nat.lt_of_le_of_ne (Nat.le_of_lt_succ hk) (Ne.symm hlast)
      rw [InodeEntry.slot_of_lt hmax] at hne
      by_cases hind : e.indirect = 0
      · exact hne (InodeEntry.addr_of_no_indirect hlt hind)
      · rw [InodeEntry.addr_indirect hlt hind, hmem hind, BlockData.u32_zero] at hne
        exact hne rfl

/-- The indirect block is none of those of the others. -/
theorem Loaded.indirect_notMem (h : c.Loaded sb base inode s) (hind : inode.entry.indirect ≠ 0) :
    inode.entry.indirect.toNat ∉ base := by
  have hlast : inode.entry.ownBlock inodeNumDirect = inode.entry.indirect.toNat :=
    dif_neg (Nat.lt_irrefl _)
  rw [← hlast]
  exact h.owns.apart _ (Nat.lt_succ_self _) (by rw [hlast]; exact toNat_eq_zero.not.mpr hind)

/-- A loaded inode is loaded over plain content, where its indirect block is empty. -/
theorem Loaded.contents (h : c.Loaded sb base inode s)
    (hsim : c.Sim I {inode.entry.indirect.toNat} s g) (hI : toBlockNo sb inode.inodeNo ∈ I)
    (hmem : inode.entry.indirect ≠ 0 → g.2 inode.entry.indirect.toNat = .zero) :
    c.contentsIdeal.Loaded sb base inode g := by
  refine ⟨?_, h.valid, h.inodeNo, h.block, h.type, ?_⟩
  · have hslots := slots_of_ownBlock h.owns hmem
    rw [← hsim.state] at hslots
    exact hslots
  · show (getEntry (g.2 _) _).type ≠ _
    rw [hsim.inodes _ hI]
    exact h.stored

/-- A loaded inode without an indirect block, seen through `data`, is loaded over structs: without
that block no slot is read through a cast. -/
theorem Loaded.of_data (h : c.dataIdeal.Loaded sb base inode s)
    (hind : inode.entry.indirect = 0) : c.Loaded sb base inode s := by
  refine ⟨?_, h.valid, h.inodeNo, h.block, h.type, h.stored⟩
  refine h.owns.embed (fun j => if j < inodeNumDirect then j else inodeNumDirect) ?_ ?_
  · intro j hj
    unfold InodeEntry.ownBlock
    split
    · next hlt =>
      have hmax : j < inodeMaxBlocks := Nat.lt_of_lt_of_le hlt (Nat.le_add_right _ _)
      rw [InodeEntry.slot_of_lt hmax, InodeEntry.addr_direct hlt]
      exact ⟨Nat.lt_succ_of_lt hlt, rfl⟩
    · next hge =>
      rw [dif_neg (Nat.lt_irrefl _), hind, InodeEntry.slot_of_no_indirect hge hind]
      exact ⟨Nat.lt_succ_self _, rfl⟩
  · intro k hk hne
    have hlt : k < inodeNumDirect := by
      by_contra hge
      exact hne (by rw [InodeEntry.ownBlock, dif_neg hge, hind]; rfl)
    refine ⟨k, ?_, if_pos hlt⟩
    exact Nat.lt_succ_of_lt (Nat.lt_of_lt_of_le hlt (Nat.le_add_right _ _))

/-- `inode_get` of an inode whose blocks are its own loads it as it is stored, if the root is a
directory. The entry is read through `data`. -/
theorem Loaded.of_inodeLoad {n : Nat} {junk : InodeEntry}
    (hload : inodeLoad sb cache n junk s = .ok (inode, t))
    (howns : Slots (inodeNumDirect + 1) (c.entryOf sb s n).ownBlock base (c.used s))
    (hblock : toBlockNo sb n ∈ base) (hroot : n = 1 → (c.entryOf sb s n).type = 1) :
    inode = ⟨n, true, c.entryOf sb s n⟩ ∧ c.entryOf sb t n = c.entryOf sb s n ∧
      c.Loaded sb base inode t := by
  have hdata : inodeLoad sb cache.onData n junk s = .ok (inode, t) := hload
  obtain ⟨hn, htype, hinode, hmem, hused⟩ := BlockCache.Ideal.inodeLoad_eq_ok c.dataIdeal hdata
  have hentry : c.entryOf sb t n = c.entryOf sb s n := by
    show getEntry (c.dataIdeal.mem t _) n = getEntry (c.mem s _) n
    rw [hmem]
    rfl
  have hsame : inode = ⟨n, true, c.entryOf sb s n⟩ := by
    rw [hinode]
    exact congrArg (Inode.mk n true) (BlockCache.Ideal.loadedEntry_eq hroot)
  have hused : c.used t = c.used s := hused
  refine ⟨hsame, hentry, ?_⟩
  subst hsame
  refine ⟨?_, rfl, hn, hblock, htype, ?_⟩
  · rw [hused]
    exact howns
  · show (c.entryOf sb t n).type ≠ inodeInvalid
    rw [hentry]
    exact htype

/-- A loaded inode over structs, with plain content beside it over which it is loaded, too. -/
structure Tracks (c : cache.Structs) (sb : SuperBlock) (base : Finset Nat) (inode : Inode) (s : σ)
    (g : σ × Disk) : Prop where
  sim : c.Sim {toBlockNo sb inode.inodeNo} {inode.entry.indirect.toNat} s g
  loaded : c.contentsIdeal.Loaded sb base inode g

/-- There is such a content, and in the blocks of the file it is what the casts read. -/
theorem Loaded.tracks_castMem (h : c.Loaded sb base inode s) :
    ∃ g, c.Tracks sb base inode s g ∧ ∀ b, b ≠ toBlockNo sb inode.inodeNo →
      b ≠ inode.entry.indirect.toNat → g.2 b = c.castMem s b := by
  classical
  have hsim := c.sim_view ({toBlockNo sb inode.inodeNo} : Set Nat) {inode.entry.indirect.toNat} s
  refine ⟨_, ⟨hsim, h.contents hsim (Set.mem_singleton _) fun hind => ?_⟩, fun b hI hJ => ?_⟩
  · have hother : inode.entry.indirect.toNat ∉ ({toBlockNo sb inode.inodeNo} : Set Nat) := by
      intro heq
      rw [Set.mem_singleton_iff] at heq
      exact h.indirect_notMem hind (heq ▸ h.block)
    show view c {toBlockNo sb inode.inodeNo} {inode.entry.indirect.toNat} s _ = _
    rw [view, if_neg hother, if_pos (Set.mem_singleton _)]
  · show view c {toBlockNo sb inode.inodeNo} {inode.entry.indirect.toNat} s b = _
    rw [view, if_neg (by rwa [Set.mem_singleton_iff]), if_neg (by rwa [Set.mem_singleton_iff])]

theorem Loaded.tracks (h : c.Loaded sb base inode s) : ∃ g, c.Tracks sb base inode s g := by
  obtain ⟨g, hg, -⟩ := h.tracks_castMem
  exact ⟨g, hg⟩

/-- The stored entry is the same on both sides. -/
theorem Tracks.entryOf (h : c.Tracks sb base inode s g) :
    c.entryOf sb s inode.inodeNo = c.contentsIdeal.entryOf sb g inode.inodeNo := by
  show getEntry _ _ = getEntry (g.2 _) _
  rw [h.sim.inodes _ (Set.mem_singleton _)]

/-- Both sides have the same blocks in use. -/
theorem Tracks.used (h : c.Tracks sb base inode s g) : c.contentsIdeal.used g = c.used s :=
  congrArg c.used h.sim.state

/-- A harmless write does what it does over plain content. The loop goes over direct blocks only,
and each `memcpy` stays behind the header or leaves it as it is. -/
theorem Tracks.inodeWrite (h : c.Tracks sb base inode s g) {src : List UInt8} {offset : Nat}
    (hharmless : cache.Harmless sb inode src offset s) :
    Follows .fault False (fun r r' => r.1 = r'.1 ∧ c.Tracks sb base r.1 r.2 r'.2)
      (Fs.inodeWrite sb cache inode src offset s)
      (Fs.inodeWrite sb c.contents inode src offset g) := by
  have hbase : ∀ b ∈ ({toBlockNo sb inode.inodeNo} : Set Nat), b ∈ base := by
    rintro b rfl
    exact h.loaded.block
  have hfollows := h.sim.harmless (Set.mem_singleton _) hbase (fun b hb => .inr hb) h.loaded.owns
    hharmless
  refine hfollows.mono_of id ?_
  rintro ⟨inode', t⟩ ⟨_, g'⟩ hrun ⟨rfl, hsim⟩
  have hlen : src.length < 2 ^ 64 := by
    have hlt := hharmless.1
    unfold inodeNumDirect blockSize at hlt
    omega
  obtain ⟨hloaded, hno, -⟩ := h.loaded.inodeWrite
    (BlockCache.Ideal.allocOr_of_full c.contents_full) hlen hrun
  have hind := indirect_inodeWrite h.loaded.valid hharmless.1 hrun
  refine ⟨rfl, ?_, hloaded⟩
  rw [hno, hind]
  exact hsim

/-- `inode_clear` does what it does over plain content if there is no indirect block. -/
theorem Tracks.inodeClear (h : c.Tracks sb base inode s g) (hind : inode.entry.indirect = 0) :
    Follows .fault False (fun r r' => r.1 = r'.1 ∧ c.Tracks sb base r.1 r.2 r'.2)
      (Fs.inodeClear sb cache inode s) (Fs.inodeClear sb c.contents inode g) := by
  have haddrs : ∀ k, inode.entry.addrs k ≠ 0 →
      (inode.entry.addrs k).toNat ∉ ({toBlockNo sb inode.inodeNo} : Set Nat) := by
    intro k hk hmem
    have hmax : k.val < inodeMaxBlocks := Nat.lt_of_lt_of_le k.isLt (Nat.le_add_right _ _)
    have haddr : inode.entry.addr (c.contentsIdeal.mem g) k = (inode.entry.addrs k).toNat :=
      InodeEntry.addr_direct k.isLt
    have hnot := h.loaded.owns.addr_notMem_base hmax (by rwa [haddr, ne_eq, toNat_eq_zero])
    rw [haddr, Set.mem_singleton_iff.mp hmem] at hnot
    exact hnot h.loaded.block
  have hfollows := h.sim.inodeClear (P := False) (Set.mem_singleton _) hind haddrs
  refine Follows.mono_of hfollows id ?_
  rintro ⟨inode', t⟩ ⟨_, g'⟩ hrun ⟨rfl, hsim⟩
  obtain ⟨u, hclear, hloaded, -⟩ := h.loaded.inodeClear
  rw [hclear] at hrun
  cases hrun
  rw [hind] at hsim
  exact ⟨rfl, hsim, hloaded⟩

/-- `inode_sync` uses no cast. -/
theorem Tracks.inodeSync (h : c.Tracks sb base inode s g) :
    Follows .fault False (fun r r' => r.1 = r'.1 ∧ c.Tracks sb base r.1 r.2 r'.2)
      (Fs.inodeSync sb cache inode true s) (Fs.inodeSync sb c.contents inode true g) := by
  have hfollows := h.sim.inodeSync (P := False) (Set.mem_singleton (toBlockNo sb inode.inodeNo)) true
  refine Follows.mono_of hfollows id ?_
  rintro ⟨inode', t⟩ ⟨_, g'⟩ hrun ⟨rfl, hsim⟩
  obtain ⟨u, hsync, hloaded, -⟩ := h.loaded.inodeSync
  rw [hsync] at hrun
  cases hrun
  exact ⟨rfl, hsim, hloaded⟩

end Structs

end BlockCache

/-! ## A mock with structs

For the examples: the cache of the tests, with blocks that have a header. -/

/-- `mockCache` with structs for blocks: `block_no` is the number of the block, the other members
before `data` are 0. A store that would change one of them is an error. -/
def structMock : BlockCache MockState :=
  { mockCache with
    bytes := fun b s => .ok (structBytes (structs b) (s.mem b))
    setBytes := fun b d s =>
      if SameHeader (structs b) d then
        .ok { s with mem := Function.update s.mem b (structData (s.mem b) d) }
      else .error .fault }

/-- The mock keeps what is written to `data`. Its headers have the number of the block and are
otherwise as for a block that nobody holds. -/
def structMockStructs : structMock.Structs where
  head _ := structs
  mem := MockState.mem
  used := MockState.used
  pool := mockCacheIdeal.pool
  pool_u32 := mockCacheIdeal.pool_u32
  acquire := mockCacheIdeal.acquire
  release := mockCacheIdeal.release
  sync := mockCacheIdeal.sync
  data := mockCacheIdeal.data
  setData := mockCacheIdeal.setData
  bytes _ _ := rfl
  setBytes _ _ _ h := ⟨_, if_pos h, rfl, rfl⟩
  alloc := mockCacheIdeal.alloc
  alloc_full := mockCache_full
  free := mockCacheIdeal.free
  free_unused _ _ h := ⟨_, if_neg h⟩

/-- The first address that the casts read in a block of the mock is the number of the block. -/
theorem structMock_blockNo (s : MockState) (b : Nat) :
    (structMockStructs.castMem s b).u32 0 = .ofNat b := by
  have hbyte : ∀ k < 4, (structMockStructs.castMem s b).byte (4 * 0 + k) = leByte b k := by
    intro k hk
    rw [Nat.mul_zero, Nat.zero_add]
    refine (byte_structBytes_head (hk.trans (by decide))).trans ?_
    exact if_pos (hk.trans (by decide))
  rw [BlockData.u32, leU32, leNat_congr hbyte, leNat_leByte]
  exact UInt32.toNat_inj.mp (by simp)

/-- A file whose only block is `1000`, inode `2`. -/
def structFile (type numBytes : UInt16) : Inode := ⟨2, true, { InodeEntry.zero with
  type := type, numLinks := 1, numBytes := numBytes, addrs := fun k => if k.val = 0 then 1000 else 0 }⟩

/-- The mock with the entry of this file in block `100`. -/
def structFileState (type numBytes : UInt16) : MockState :=
  ⟨fun b => if b = 100 then putEntry .zero 2 (structFile type numBytes).entry else .zero, {100, 1000}⟩

section StructFile

variable {type : UInt16} (numBytes : UInt16)

/-- The entry of the file is stored. -/
theorem structFile_entryOf : structMockStructs.entryOf (smallSuperBlock 20)
    (structFileState type numBytes) 2 = (structFile type numBytes).entry := by
  show getEntry (putEntry .zero 2 (structFile type numBytes).entry) 2 = _
  rw [getEntry_putEntry, if_pos rfl]

/-- The file has one block, and no other is in use but the one that stores the inode, so the slots
are apart from each other and from that one. -/
theorem structFile_slots : Slots (inodeNumDirect + 1) (structFile type numBytes).entry.ownBlock {100}
    (structMockStructs.used (structFileState type numBytes)) := by
  have hblock : ∀ k < inodeNumDirect + 1,
      (structFile 0 0).entry.ownBlock k = if k = 0 then 1000 else 0 := by decide
  have hblock : ∀ k < inodeNumDirect + 1,
      (structFile type numBytes).entry.ownBlock k = if k = 0 then 1000 else 0 := hblock
  have hzero : ∀ k < inodeNumDirect + 1,
      (structFile type numBytes).entry.ownBlock k ≠ 0 → k = 0 := by
    intro k hk hne
    by_contra hk0
    exact hne ((hblock k hk).trans (if_neg hk0))
  refine ⟨?_, ?_, ?_⟩
  · intro x
    show x ∈ ({100, 1000} : Finset Nat) ↔ _
    rw [Finset.mem_insert, Finset.mem_singleton, Finset.mem_singleton]
    refine or_congr_right ⟨?_, ?_⟩
    · rintro rfl
      exact ⟨by decide, 0, by decide, hblock 0 (by decide)⟩
    · rintro ⟨hne, k, hk, rfl⟩
      rw [hblock k hk, if_pos (hzero k hk hne)]
  · intro k hk hne
    rw [hblock k hk, if_pos (hzero k hk hne)]
    decide
  · intro i hi j hj hne heq
    rw [hzero i hi hne, hzero j hj (heq ▸ hne)]

/-- `inode_get` of the file. -/
theorem structFile_load (htype : type ≠ inodeInvalid) :
    inodeLoad (smallSuperBlock 20) structMock 2 .zero (structFileState type numBytes) =
      .ok (structFile type numBytes, structFileState type numBytes) := by
  have hstored : mockCacheIdeal.entryOf (smallSuperBlock 20) (structFileState type numBytes)
      (structFile type numBytes).inodeNo = (structFile type numBytes).entry :=
    structFile_entryOf numBytes
  have hn : 0 < (structFile type numBytes).inodeNo ∧
      (structFile type numBytes).inodeNo < (smallSuperBlock 20).numInodes.toNat := by
    show 0 < 2 ∧ 2 < (smallSuperBlock 20).numInodes.toNat
    decide
  have hroot : (structFile type numBytes).inodeNo ≠ 1 := by
    show 2 ≠ 1
    decide
  exact mockCache_inodeLoad hn hroot rfl htype hstored .zero

/-- The file is loaded. -/
theorem structFile_loaded (htype : type ≠ inodeInvalid) :
    structMockStructs.Loaded (smallSuperBlock 20) {100} (structFile type numBytes)
      (structFileState type numBytes) := by
  have hslots := @structFile_slots type numBytes
  rw [← structFile_entryOf] at hslots
  exact (BlockCache.Structs.Loaded.of_inodeLoad (structFile_load numBytes htype) hslots (by decide)
    fun hroot => absurd hroot (by decide)).2.2

end StructFile

end KernelAarch64.Fs
