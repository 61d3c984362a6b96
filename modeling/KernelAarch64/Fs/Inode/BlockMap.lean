import KernelAarch64.Fs.Inode
import KernelAarch64.Lib.Slots

/-!
# The block map of an inode

An inode has 141 slots for blocks: the 12 direct addresses, the 128 addresses in the indirect block,
and the indirect block itself. `slot` is what they hold. The functions of the inode layer are run
over a block cache that works as `cache.h` describes it (`BlockCache.Ideal`): it keeps what is
written to a block, and `alloc` returns a block that was not in use, filled with zeros.

`Owns` is the invariant: the slots of an inode hold blocks that are in use, belong to nobody else
and are distinct, in the sense of `Lib.Slots`. `Extends` is what mapping may change, and `Fills`
says how far it goes; both compose along a sequence of calls. The main results are `inodeMap_cases`
and `inodeMap2_spec`, with one lemma for each branch of `inode_map` before them.
-/

namespace KernelAarch64.Fs

open KernelAarch64.Lib

theorem toNat_eq_zero {v : UInt32} : v.toNat = 0 ↔ v = 0 := by
  rw [← UInt32.toNat_inj]
  rfl

/-- A block number fits in a `u32`. -/
theorem toNat_ofNat {b : Nat} (hb : b < 2 ^ 32) : (UInt32.ofNat b).toNat = b := by
  rw [UInt32.toNat_ofNat', Nat.mod_eq_of_lt hb]

theorem inodeMaxBytes_eq : inodeMaxBytes = 71680 := rfl

/-- A position of the file is in one of its blocks. -/
theorem div_lt_inodeMaxBlocks {p : Nat} (hp : p < inodeMaxBytes) :
    p / blockSize < inodeMaxBlocks :=
  Nat.div_lt_of_lt_mul (by rwa [Nat.mul_comm])

/-! ## Slots

The entry and the content of the indirect block determine the slots. So the lemmas about them are of
two kinds: which slot an address is in, and which changes to the memory leave the slots alone. -/

/-- The number of slots of an inode. -/
abbrev numSlots : Nat := inodeMaxBlocks + 1

namespace InodeEntry

/-- The address of file block `k`, with the indirect block read from `mem`; `0` if there is none. -/
def addr (e : InodeEntry) (mem : Disk) (k : Nat) : Nat :=
  if h : k < inodeNumDirect then (e.addrs ⟨k, h⟩).toNat
  else if e.indirect = 0 then 0
  else ((mem e.indirect.toNat).u32 (k - inodeNumDirect)).toNat

/-- The block in slot `k`. The last slot is the indirect block. -/
def slot (e : InodeEntry) (mem : Disk) (k : Nat) : Nat :=
  if k < inodeMaxBlocks then e.addr mem k else e.indirect.toNat

/-- The byte at position `p` of the file. -/
def fileByte (e : InodeEntry) (mem : Disk) (p : Nat) : UInt8 :=
  (mem (e.addr mem (p / blockSize))).byte (p % blockSize)

variable {e : InodeEntry} {mem : Disk} {k : Nat}

/-- All slots but the last are for data. -/
theorem slot_of_lt (hk : k < inodeMaxBlocks) : e.slot mem k = e.addr mem k := if_pos hk

/-- The last slot is the indirect block. -/
theorem slot_last : e.slot mem inodeMaxBlocks = e.indirect.toNat := if_neg (Nat.lt_irrefl _)

/-- The first addresses are in the entry. -/
theorem addr_direct (h : k < inodeNumDirect) : e.addr mem k = (e.addrs ⟨k, h⟩).toNat := dif_pos h

/-- The others are in the indirect block. -/
theorem addr_indirect (hk : ¬ k < inodeNumDirect) (h : e.indirect ≠ 0) :
    e.addr mem k = ((mem e.indirect.toNat).u32 (k - inodeNumDirect)).toNat := by
  rw [addr, dif_neg hk, if_neg h]

/-- The slots behind the direct ones are the entries of the indirect block. -/
theorem slot_indirect (h : e.indirect ≠ 0) (hk : k < inodeNumIndirect) :
    e.slot mem (inodeNumDirect + k) = ((mem e.indirect.toNat).u32 k).toNat := by
  have hlt : inodeNumDirect + k < inodeMaxBlocks := by
    unfold inodeMaxBlocks
    omega
  rw [slot_of_lt hlt, addr_indirect (by omega) h, Nat.add_sub_cancel_left]

/-- Without an indirect block the others are empty. -/
theorem addr_of_no_indirect (hk : ¬ k < inodeNumDirect) (h : e.indirect = 0) :
    e.addr mem k = 0 := by
  rw [addr, dif_neg hk, if_pos h]

/-- Without an indirect block all slots behind the direct ones are empty. -/
theorem slot_of_no_indirect (hk : ¬ k < inodeNumDirect) (h : e.indirect = 0) :
    e.slot mem k = 0 := by
  unfold slot
  split
  · exact addr_of_no_indirect hk h
  · rw [h]
    rfl

/-- The slots depend on the memory only through the indirect block. -/
theorem slot_congr {mem' : Disk} (h : e.indirect ≠ 0 → mem' e.indirect.toNat = mem e.indirect.toNat)
    (k : Nat) : e.slot mem' k = e.slot mem k := by
  unfold slot addr
  by_cases hind : e.indirect = 0
  · simp [hind]
  · simp [hind, h hind]

theorem addr_congr {mem' : Disk} (h : e.indirect ≠ 0 → mem' e.indirect.toNat = mem e.indirect.toNat)
    (k : Nat) : e.addr mem' k = e.addr mem k := by
  unfold addr
  by_cases hind : e.indirect = 0
  · simp [hind]
  · simp [hind, h hind]

theorem slot_update {b : Nat} (hb : e.indirect ≠ 0 → e.indirect.toNat ≠ b) (d : BlockData)
    (k : Nat) : e.slot (Function.update mem b d) k = e.slot mem k :=
  slot_congr (fun hind => Function.update_of_ne (hb hind) ..) k

/-- An entry without addresses has empty slots. -/
theorem slot_of_no_blocks {k : Nat} (haddrs : ∀ i, e.addrs i = 0) (hind : e.indirect = 0) :
    e.slot mem k = 0 := by
  by_cases hdirect : k < inodeNumDirect
  · rw [slot_of_lt (by unfold inodeMaxBlocks; omega), addr_direct hdirect, haddrs]
    rfl
  · exact slot_of_no_indirect hdirect hind

end InodeEntry

/-- What `inode_clear` leaves of an inode. -/
def Inode.cleared (inode : Inode) : Inode :=
  { inode with entry := { inode.entry with numBytes := 0, addrs := fun _ => 0, indirect := 0 } }

@[simp] theorem Inode.cleared_inodeNo (inode : Inode) :
    inode.cleared.inodeNo = inode.inodeNo := rfl

/-! ## Caches that work as documented

A cache is a parameter of the inode layer, as in the source, where it is a struct of function
pointers. `Ideal` collects what `cache.h` says of these functions. It treats the memory of a block
as its content; what the casts in `inode.c` make of that is in `Fs.Inode.Structs`. -/

/-- What the inode layer relies on. `mem` is the content of every block, `used` the blocks in use,
and `pool` the blocks that `alloc` manages. -/
structure BlockCache.Ideal {σ : Type} (cache : BlockCache σ) where
  mem : σ → Disk
  used : σ → Finset Nat
  pool : Finset Nat
  pool_u32 : ∀ b ∈ pool, b ≠ 0 ∧ b < 2 ^ 32
  acquire : ∀ b s, ∃ t, cache.acquire b s = .ok t ∧ mem t = mem s ∧ used t = used s
  release : ∀ b s, ∃ t, cache.release b s = .ok t ∧ mem t = mem s ∧ used t = used s
  sync : ∀ b s, ∃ t, cache.sync b s = .ok t ∧ mem t = mem s ∧ used t = used s
  data : ∀ b s, cache.data b s = .ok (mem s b)
  setData : ∀ b d s, ∃ t, cache.setData b d s = .ok t ∧
    mem t = Function.update (mem s) b d ∧ used t = used s
  /-- The cast of the block pointer is taken for its content. -/
  bytes : ∀ b s, cache.bytes b s = .ok (mem s b)
  setBytes : ∀ b d s, ∃ t, cache.setBytes b d s = .ok t ∧
    mem t = Function.update (mem s) b d ∧ used t = used s
  alloc : ∀ s, ¬ pool ⊆ used s → ∃ b t, cache.alloc s = .ok (b, t) ∧ b ∈ pool ∧ b ∉ used s ∧
    mem t = Function.update (mem s) b .zero ∧ used t = insert b (used s)
  free : ∀ b s, b ∈ used s → ∃ t, cache.free b s = .ok t ∧ (∀ x ≠ b, mem t x = mem s x) ∧
    used t = (used s).erase b

variable {σ : Type} {cache : BlockCache σ}

/-- The blocks in the slots of `e` are its own. -/
def BlockCache.Ideal.Owns (c : cache.Ideal) (base : Finset Nat) (e : InodeEntry) (s : σ) : Prop :=
  Slots numSlots (e.slot (c.mem s)) base (c.used s)

namespace BlockCache.Ideal

variable {c : cache.Ideal} {base : Finset Nat} {e : InodeEntry} {s t : σ} {k : Nat}

/-- The invariant is about the content and the use of blocks. -/
theorem Owns.of_eq (h : c.Owns base e s) (hmem : c.mem t = c.mem s) (hused : c.used t = c.used s) :
    c.Owns base e t := by
  unfold Owns
  rw [hmem, hused]
  exact h

/-- The indirect block holds no file data. -/
theorem Owns.addr_ne_indirect (h : c.Owns base e s) (hk : k < inodeMaxBlocks)
    (ha : e.addr (c.mem s) k ≠ 0) : e.addr (c.mem s) k ≠ e.indirect.toNat := by
  intro heq
  have hlast : e.slot (c.mem s) inodeMaxBlocks = e.indirect.toNat := InodeEntry.slot_last
  rw [← InodeEntry.slot_of_lt hk] at ha heq
  rw [← hlast] at heq
  exact absurd (h.inj k (Nat.lt_succ_of_lt hk) _ (Nat.lt_succ_self _) ha heq) (Nat.ne_of_lt hk)

theorem Owns.addr_inj (h : c.Owns base e s) {i j : Nat} (hi : i < inodeMaxBlocks)
    (hj : j < inodeMaxBlocks) (ha : e.addr (c.mem s) i ≠ 0)
    (heq : e.addr (c.mem s) i = e.addr (c.mem s) j) : i = j := by
  rw [← InodeEntry.slot_of_lt hi] at ha heq
  rw [← InodeEntry.slot_of_lt hj] at heq
  exact h.inj i (Nat.lt_succ_of_lt hi) j (Nat.lt_succ_of_lt hj) ha heq

theorem Owns.addr_mem (h : c.Owns base e s) (hk : k < inodeMaxBlocks)
    (ha : e.addr (c.mem s) k ≠ 0) : e.addr (c.mem s) k ∈ c.used s := by
  rw [← InodeEntry.slot_of_lt hk] at ha ⊢
  exact h.mem (Nat.lt_succ_of_lt hk) ha

/-- A mapped block is none of the others. -/
theorem Owns.addr_notMem_base (h : c.Owns base e s) (hk : k < inodeMaxBlocks)
    (ha : e.addr (c.mem s) k ≠ 0) : e.addr (c.mem s) k ∉ base := by
  rw [← InodeEntry.slot_of_lt hk] at ha ⊢
  exact h.apart k (Nat.lt_succ_of_lt hk) ha

/-- Writing to a data block of the file keeps the slots. -/
theorem Owns.slot_write (h : c.Owns base e s) (hk : k < inodeMaxBlocks)
    (ha : e.addr (c.mem s) k ≠ 0) {d : BlockData}
    (hmem : c.mem t = Function.update (c.mem s) (e.addr (c.mem s) k) d) (j : Nat) :
    e.slot (c.mem t) j = e.slot (c.mem s) j := by
  rw [hmem]
  exact InodeEntry.slot_update (fun _ => (h.addr_ne_indirect hk ha).symm) d j

/-- Writing to a data block of the file keeps the block map. -/
theorem Owns.write (h : c.Owns base e s) (hk : k < inodeMaxBlocks)
    (ha : e.addr (c.mem s) k ≠ 0) {d : BlockData}
    (hmem : c.mem t = Function.update (c.mem s) (e.addr (c.mem s) k) d)
    (hused : c.used t = c.used s) :
    c.Owns base e t ∧ ∀ j, e.addr (c.mem t) j = e.addr (c.mem s) j := by
  have hind : c.mem t e.indirect.toNat = c.mem s e.indirect.toNat := by
    rw [hmem, Function.update_of_ne (h.addr_ne_indirect hk ha).symm]
  refine ⟨?_, InodeEntry.addr_congr fun _ => hind⟩
  unfold Owns
  rw [hused]
  exact Slots.congr h fun j _ => h.slot_write hk ha hmem j

/-! ## Filling a slot

`alloc` may fail. Then nothing has been filled, and the call that needed the block fails with it;
`Q` stands for what is known in that case. -/

/-- What mapping blocks may change: the inode's addresses, empty slots, and blocks outside `base`
that held no file data. -/
structure Extends (c : cache.Ideal) (base : Finset Nat) (inode : Inode) (s : σ) (inode' : Inode)
    (t : σ) : Prop where
  head : ∃ addrs indirect, inode' =
    { inode with entry := { inode.entry with addrs := addrs, indirect := indirect } }
  addr : ∀ k < inodeMaxBlocks, inode.entry.addr (c.mem s) k ≠ 0 →
    inode'.entry.addr (c.mem t) k = inode.entry.addr (c.mem s) k
  content : ∀ k < inodeMaxBlocks, inode.entry.addr (c.mem s) k ≠ 0 →
    c.mem t (inode.entry.addr (c.mem s) k) = c.mem s (inode.entry.addr (c.mem s) k)
  base : ∀ x ∈ base, c.mem t x = c.mem s x

theorem Extends.of_mem_eq (inode : Inode) (hmem : c.mem t = c.mem s) :
    c.Extends base inode s inode t :=
  ⟨⟨_, _, rfl⟩, fun _ _ _ => by rw [hmem], fun _ _ _ => by rw [hmem], fun _ _ => by rw [hmem]⟩

/-- One call after the other. What the first has mapped stays mapped to the same block in the
second. -/
theorem Extends.trans {inode₁ inode₂ inode₃ : Inode} {s₁ s₂ s₃ : σ}
    (h₁ : c.Extends base inode₁ s₁ inode₂ s₂) (h₂ : c.Extends base inode₂ s₂ inode₃ s₃) :
    c.Extends base inode₁ s₁ inode₃ s₃ := by
  constructor
  · obtain ⟨a, i, rfl⟩ := h₁.head
    obtain ⟨a', i', rfl⟩ := h₂.head
    exact ⟨a', i', rfl⟩
  · intro k hk ha
    have heq := h₁.addr k hk ha
    rw [h₂.addr k hk (by rwa [heq]), heq]
  · intro k hk ha
    have heq := h₁.addr k hk ha
    have hcontent := h₂.content k hk (by rwa [heq])
    rw [heq] at hcontent
    rw [hcontent, h₁.content k hk ha]
  · intro x hx
    rw [h₂.base x hx, h₁.base x hx]

/-- Only empty slots of `K` are filled, and nothing is allocated if there are none. This is the part
of what mapping does that the size of a file on the disk depends on. -/
structure Fills (c : cache.Ideal) (K : Set Nat) (inode : Inode) (s : σ) (inode' : Inode) (t : σ) :
    Prop where
  slot : ∀ j < numSlots, inode'.entry.slot (c.mem t) j = inode.entry.slot (c.mem s) j ∨
    j ∈ K ∧ inode.entry.slot (c.mem s) j = 0
  used : (∀ j < numSlots, j ∈ K → inode.entry.slot (c.mem s) j ≠ 0) → c.used t = c.used s

theorem Fills.of_eq {K : Set Nat} (inode : Inode) (hmem : c.mem t = c.mem s)
    (hused : c.used t = c.used s) : c.Fills K inode s inode t :=
  ⟨fun _ _ => .inl (by rw [hmem]), fun _ => hused⟩

theorem Fills.ne_zero {K : Set Nat} {inode inode' : Inode} (h : c.Fills K inode s inode' t)
    (hk : k < numSlots) (hne : inode.entry.slot (c.mem s) k ≠ 0) :
    inode'.entry.slot (c.mem t) k ≠ 0 := by
  rcases h.slot k hk with hsame | ⟨-, hzero⟩
  · rwa [hsame]
  · exact absurd hzero hne

/-- One call after the other fills slots of either. A slot that the first call filled is not filled
again. -/
theorem Fills.trans {K₁ K₂ : Set Nat} {inode₁ inode₂ inode₃ : Inode} {s₁ s₂ s₃ : σ}
    (h₁ : c.Fills K₁ inode₁ s₁ inode₂ s₂) (h₂ : c.Fills K₂ inode₂ s₂ inode₃ s₃) :
    c.Fills (K₁ ∪ K₂) inode₁ s₁ inode₃ s₃ := by
  constructor
  · intro j hj
    rcases h₁.slot j hj with hsame₁ | ⟨hK, hzero⟩
    · rcases h₂.slot j hj with hsame₂ | ⟨hK, hzero⟩
      · exact .inl (hsame₂.trans hsame₁)
      · exact .inr ⟨.inr hK, hsame₁.symm.trans hzero⟩
    · exact .inr ⟨.inl hK, hzero⟩
  · intro hfull
    have hused₁ := h₁.used fun j hj hK => hfull j hj (.inl hK)
    rw [h₂.used fun j hj hK => h₁.ne_zero hj (hfull j hj (.inr hK)), hused₁]

/-- A block `b` that was not in use goes to the empty slot `k`. The slots still have blocks of their
own, and those in use are one more. -/
theorem Owns.fill {inode inode' : Inode} {b : Nat} (h : c.Owns base inode.entry s)
    (hk : k < numSlots) (hempty : inode.entry.slot (c.mem s) k = 0) (hb : b ∉ c.used s)
    (hb0 : b ≠ 0)
    (hslot : ∀ j < numSlots, inode'.entry.slot (c.mem t) j =
      Function.update (inode.entry.slot (c.mem s)) k b j)
    (hhead : ∃ addrs indirect, inode' =
      { inode with entry := { inode.entry with addrs := addrs, indirect := indirect } })
    (hmem : ∀ x ≠ b, (inode'.entry.indirect ≠ 0 → x ≠ inode'.entry.indirect.toNat) →
      c.mem t x = c.mem s x)
    (hused : c.used t = insert b (c.used s)) :
    c.Owns base inode'.entry t ∧ c.Extends base inode s inode' t ∧ c.Fills {k} inode s inode' t := by
  have hfill : c.Owns base inode'.entry t := by
    unfold Owns
    rw [hused]
    exact (Slots.fill h hk hempty hb hb0).congr hslot
  -- Slot `k` was empty, so an address that was there is in another slot.
  have haddr : ∀ j < inodeMaxBlocks, inode.entry.addr (c.mem s) j ≠ 0 →
      inode'.entry.addr (c.mem t) j = inode.entry.addr (c.mem s) j := by
    intro j hj ha
    have hjk : j ≠ k := by
      rintro rfl
      rw [InodeEntry.slot_of_lt hj] at hempty
      exact ha hempty
    have hslotj := hslot j (Nat.lt_succ_of_lt hj)
    rwa [Function.update_of_ne hjk, InodeEntry.slot_of_lt hj, InodeEntry.slot_of_lt hj] at hslotj
  refine ⟨hfill, ⟨hhead, haddr, ?_, ?_⟩, ?_, fun hfull => absurd hempty (hfull k hk rfl)⟩
  · intro j hj ha
    refine hmem _ ?_ fun _ => ?_
    · rintro rfl
      exact hb (h.addr_mem hj ha)
    · have hne := hfill.addr_ne_indirect hj (by rwa [haddr j hj ha])
      rwa [haddr j hj ha] at hne
  · intro x hx
    refine hmem x ?_ ?_
    · rintro rfl
      exact hb ((h.mem_used _).mpr (.inl hx))
    · rintro hind rfl
      have hlast := hfill.apart inodeMaxBlocks (Nat.lt_succ_self _)
      rw [InodeEntry.slot_last] at hlast
      exact hlast (toNat_eq_zero.not.mpr hind) hx
  · intro j hj
    by_cases hjk : j = k
    · rw [hjk]
      exact .inr ⟨rfl, hempty⟩
    · rw [hslot j hj, Function.update_of_ne hjk]
      exact .inl rfl

/-- Blocks that are not in use are not read through the slots. -/
theorem Owns.slot_update {b : Nat} (h : c.Owns base e s) (hb : b ∉ c.used s) (d : BlockData) :
    e.slot (Function.update (c.mem s) b d) = e.slot (c.mem s) := by
  refine funext (InodeEntry.slot_update ?_ d)
  rintro hind rfl
  have hlast := h.mem (Nat.lt_succ_self inodeMaxBlocks)
  rw [InodeEntry.slot_last] at hlast
  exact hb (hlast (toNat_eq_zero.not.mpr hind))

/-- Where a file has an empty slot, `alloc` returns a block that was not in use, or it fails and `Q`
holds. -/
def AllocOr (c : cache.Ideal) (base : Finset Nat) (Q : Prop) : Prop :=
  ∀ e s k, c.Owns base e s → k < numSlots → e.slot (c.mem s) k = 0 →
    (∃ b t, cache.alloc s = .ok (b, t) ∧ b ∉ c.used s ∧ b ≠ 0 ∧ (UInt32.ofNat b).toNat = b ∧
      c.mem t = Function.update (c.mem s) b .zero ∧ c.used t = insert b (c.used s)) ∨
    (Q ∧ ∃ e, cache.alloc s = .error e)

/-- While the pool is not used up, `alloc` returns a block of it. -/
theorem alloc_of_free (c : cache.Ideal) (h : ¬ c.pool ⊆ c.used s) :
    ∃ b t, cache.alloc s = .ok (b, t) ∧ b ∉ c.used s ∧ b ≠ 0 ∧ (UInt32.ofNat b).toNat = b ∧
      c.mem t = Function.update (c.mem s) b .zero ∧ c.used t = insert b (c.used s) := by
  obtain ⟨b, t, halloc, hpool, hb, hmem, hused⟩ := c.alloc s h
  obtain ⟨hb0, hb32⟩ := c.pool_u32 b hpool
  exact ⟨b, t, halloc, hb, hb0, toNat_ofNat hb32, hmem, hused⟩

/-- With a block to spare for each slot, `alloc` does not fail. -/
theorem allocOr_of_room (hroom : numSlots ≤ (c.pool \ base).card) : c.AllocOr base False :=
  fun _ _ _ h hk hempty => .inl (alloc_of_free c (Slots.exists_free h hk hempty hroom))

/-- `alloc` fails when no block is free. -/
theorem allocOr_of_full (hfull : ∀ s, c.pool ⊆ c.used s → ∃ e, cache.alloc s = .error e) :
    c.AllocOr base True := by
  intro _ s _ _ _ _
  by_cases hfree : c.pool ⊆ c.used s
  · exact .inr ⟨trivial, hfull s hfree⟩
  · exact .inl (alloc_of_free c hfree)

/-- An assignment to a direct address fills its slot and no other one, as the numbers of the slots
are those of the addresses. -/
theorem slot_setAddr (inode : Inode) (mem : Disk) (i : Fin inodeNumDirect) (v : UInt32) (j : Nat) :
    (inode.setAddr i v).entry.slot mem j =
      Function.update (inode.entry.slot mem) i v.toNat j := by
  have hi : i.val < 12 := i.isLt
  by_cases hji : j = i
  · subst hji
    rw [Function.update_self, InodeEntry.slot_of_lt (by unfold inodeMaxBlocks; omega),
      InodeEntry.addr_direct i.isLt]
    simp [Inode.setAddr]
  · rw [Function.update_of_ne hji]
    unfold InodeEntry.slot InodeEntry.addr
    split
    · split
      · next hj =>
        have hne : (⟨j, hj⟩ : Fin inodeNumDirect) ≠ i := fun heq => hji (congrArg Fin.val heq)
        simp [Inode.setAddr, Function.update_of_ne hne]
      · rfl
    · rfl

/-- The indirect block is new and empty, so that it gives no slot a block beside its own, the last
one. -/
theorem slot_setIndirect (inode : Inode) {mem : Disk} {v : UInt32} (hind : inode.entry.indirect = 0)
    (hmem : mem v.toNat = .zero) (j : Nat) (hj : j < numSlots) :
    (inode.setIndirect v).entry.slot mem j =
      Function.update (inode.entry.slot mem) inodeMaxBlocks v.toNat j := by
  by_cases hlast : j = inodeMaxBlocks
  · subst hlast
    rw [Function.update_self, InodeEntry.slot_last]
    rfl
  · have hlt : j < inodeMaxBlocks := Nat.lt_of_le_of_ne (Nat.le_of_lt_succ hj) hlast
    rw [Function.update_of_ne hlast, InodeEntry.slot_of_lt hlt, InodeEntry.slot_of_lt hlt]
    by_cases hdirect : j < inodeNumDirect
    · rw [InodeEntry.addr_direct hdirect, InodeEntry.addr_direct hdirect]
      rfl
    · rw [InodeEntry.addr_of_no_indirect hdirect hind]
      simp [InodeEntry.addr, hdirect, Inode.setIndirect, hmem]

/-- An assignment to an element of the indirect block fills the slot of this element and no other.
The direct blocks are in the entry, which is not touched. -/
theorem slot_setU32 {mem mem' : Disk} {v : UInt32} {i : Nat} (hind : e.indirect ≠ 0)
    (hi : ¬ i < inodeNumDirect)
    (hmem : mem' e.indirect.toNat = (mem e.indirect.toNat).setU32 (i - inodeNumDirect) v)
    (j : Nat) (hj : j < numSlots) (hmax : i < inodeMaxBlocks) :
    e.slot mem' j = Function.update (e.slot mem) i v.toNat j := by
  by_cases hlast : j = inodeMaxBlocks
  · subst hlast
    rw [Function.update_of_ne (Nat.ne_of_gt hmax), InodeEntry.slot_last, InodeEntry.slot_last]
  · have hlt : j < inodeMaxBlocks := Nat.lt_of_le_of_ne (Nat.le_of_lt_succ hj) hlast
    have hsplit : e.slot mem' j = if j = i then v.toNat else e.slot mem j := by
      rw [InodeEntry.slot_of_lt hlt, InodeEntry.slot_of_lt hlt]
      by_cases hdirect : j < inodeNumDirect
      · have hji : j ≠ i := by
          rintro rfl
          exact hi hdirect
        rw [InodeEntry.addr_direct hdirect, InodeEntry.addr_direct hdirect, if_neg hji]
      · have hbound : j - inodeNumDirect < inodeNumIndirect := by
          unfold inodeMaxBlocks inodeNumDirect inodeNumIndirect blockSize at *
          omega
        have hiff : j - inodeNumDirect = i - inodeNumDirect ↔ j = i := by omega
        rw [InodeEntry.addr_indirect hdirect hind, InodeEntry.addr_indirect hdirect hind, hmem,
          BlockData.u32_setU32 _ _ hbound]
        simp only [hiff]
        split <;> rfl
    by_cases hji : j = i
    · subst hji
      rw [hsplit, if_pos rfl, Function.update_self]
    · rw [hsplit, if_neg hji, Function.update_of_ne hji]

/-! ## `inode_map` and `inode_map2`

The branches of `inode_map` one after the other: a direct address, the indirect block itself, and an
address in the indirect block. -/

/-- File block `k` is mapped to block `b`: by now if it was not before. Every other block of the
file is where it was, with its content. -/
structure Mapped (c : cache.Ideal) (base : Finset Nat) (inode : Inode) (s : σ) (k b : Nat)
    (inode' : Inode) (t : σ) : Prop where
  owns : c.Owns base inode'.entry t
  extends' : c.Extends base inode s inode' t
  addr : inode'.entry.addr (c.mem t) k = b
  ne_zero : b ≠ 0

/-- The slots for file block `k`: its own and, for a block that is not direct, that of the indirect
block. -/
def slotsFor (k : Nat) : Set Nat := {j | j = k ∨ j = inodeMaxBlocks ∧ ¬ k < inodeNumDirect}

variable {inode : Inode} {Q : Prop}

/-- The direct branch of `inode_map`: the address is there, or a block is allocated for it. Where no
block is left it fails, which is what `Q` stands for. -/
theorem inodeMapDirect_cases (h : c.Owns base inode.entry s) (halloc : c.AllocOr base Q)
    (k : Fin inodeNumDirect) (modified : Bool) :
    (∃ b inode' modified' t, inodeMapDirect cache inode k modified s =
      .ok (b, inode', modified', t) ∧ c.Mapped base inode s k b inode' t ∧
        c.Fills {k.val} inode s inode' t ∧
        (modified' = true ∨ modified' = modified ∧ inode' = inode)) ∨
    (Q ∧ ∃ e, inodeMapDirect cache inode k modified s = .error e) := by
  unfold inodeMapDirect
  by_cases hk : inode.entry.addrs k ≠ 0
  · refine .inl ⟨_, _, _, _, if_pos hk, ⟨h, .of_mem_eq inode rfl, InodeEntry.addr_direct k.isLt, ?_⟩,
      .of_eq inode rfl rfl, .inr ⟨rfl, rfl⟩⟩
    exact toNat_eq_zero.not.mpr hk
  · rw [if_neg hk]
    have hk12 : k.val < 12 := k.isLt
    have hmax : k.val < inodeMaxBlocks := by
      unfold inodeMaxBlocks
      omega
    have hempty : inode.entry.slot (c.mem s) k = 0 := by
      rw [InodeEntry.slot_of_lt hmax, InodeEntry.addr_direct k.isLt]
      exact toNat_eq_zero.mpr (not_not.mp hk)
    rcases halloc _ s _ h (Nat.lt_succ_of_lt hmax) hempty with
      ⟨b, t, halloc, hb, hb0, hb32, hmem, hused⟩ | ⟨hQ, e, herr⟩
    swap
    · exact .inr ⟨hQ, e, by simp only [herr, error_bind]⟩
    have hslot : ∀ j < numSlots, (inode.setAddr k (.ofNat b)).entry.slot (c.mem t) j =
        Function.update (inode.entry.slot (c.mem s)) k b j := by
      intro j _
      rw [slot_setAddr, hb32, hmem, h.slot_update hb]
    obtain ⟨howns, hext, hfills⟩ := h.fill (Nat.lt_succ_of_lt hmax) hempty hb hb0 hslot
      ⟨_, _, rfl⟩ (fun x hx _ => by rw [hmem, Function.update_of_ne hx]) hused
    refine .inl ⟨b, inode.setAddr k (.ofNat b), true, t, ?_, ⟨howns, hext, ?_, hb0⟩, hfills, .inl rfl⟩
    · simp only [halloc, ok_bind, hb32]
      rfl
    · rw [← InodeEntry.slot_of_lt hmax, hslot k (Nat.lt_succ_of_lt hmax), Function.update_self]

/-- After this step of `inode_map` there is an indirect block. If it was allocated here, all of its
slots are empty, as a new block is zero. -/
theorem ensureIndirect_cases (h : c.Owns base inode.entry s) (halloc : c.AllocOr base Q)
    (modified : Bool) :
    (∃ inode' modified' t, ensureIndirect cache inode modified s = .ok (inode', modified', t) ∧
      c.Owns base inode'.entry t ∧ c.Extends base inode s inode' t ∧
        c.Fills {inodeMaxBlocks} inode s inode' t ∧ inode'.entry.indirect ≠ 0 ∧
        (modified' = true ∨ modified' = modified ∧ inode' = inode)) ∨
    (Q ∧ ∃ e, ensureIndirect cache inode modified s = .error e) := by
  unfold ensureIndirect
  by_cases hind : inode.entry.indirect = 0
  · rw [if_pos hind]
    have hempty : inode.entry.slot (c.mem s) inodeMaxBlocks = 0 := by
      rw [InodeEntry.slot_last]
      exact toNat_eq_zero.mpr hind
    rcases halloc _ s _ h (Nat.lt_succ_self _) hempty with
      ⟨b, t, halloc, hb, hb0, hb32, hmem, hused⟩ | ⟨hQ, e, herr⟩
    swap
    · exact .inr ⟨hQ, e, by simp only [herr, error_bind]⟩
    have hslot : ∀ j < numSlots, (inode.setIndirect (.ofNat b)).entry.slot (c.mem t) j =
        Function.update (inode.entry.slot (c.mem s)) inodeMaxBlocks b j := by
      intro j hj
      rw [slot_setIndirect inode hind (by rw [hmem, hb32, Function.update_self]) j hj, hb32, hmem,
        h.slot_update hb]
    obtain ⟨howns, hext, hfills⟩ := h.fill (Nat.lt_succ_self _) hempty hb hb0 hslot
      ⟨_, _, rfl⟩ (fun x hx _ => by rw [hmem, Function.update_of_ne hx]) hused
    refine .inl ⟨inode.setIndirect (.ofNat b), true, t, ?_, howns, hext, hfills, ?_, .inl rfl⟩
    · simp only [halloc, ok_bind]
      rfl
    · intro heq
      have hzero : UInt32.ofNat b = 0 := heq
      rw [hzero] at hb32
      exact hb0 hb32.symm
  · exact .inl ⟨inode, modified, s, if_neg hind, h, .of_mem_eq inode rfl, .of_eq inode rfl rfl, hind,
      .inr ⟨rfl, rfl⟩⟩

/-- The indirect branch of `inode_map`: both the indirect block and the block in it may have to be
allocated, and either can fail. -/
theorem inodeMapIndirect_cases (h : c.Owns base inode.entry s) (halloc : c.AllocOr base Q)
    (hk : ¬ k < inodeNumDirect) (hmax : k < inodeMaxBlocks) (modified : Bool) :
    (∃ b inode' modified' t, inodeMapIndirect cache inode (k - inodeNumDirect) modified s =
      .ok (b, inode', modified', t) ∧ c.Mapped base inode s k b inode' t ∧
        c.Fills ({inodeMaxBlocks} ∪ {k}) inode s inode' t ∧
        (modified' = true ∨ modified' = modified ∧ inode' = inode)) ∨
    (Q ∧ ∃ e, inodeMapIndirect cache inode (k - inodeNumDirect) modified s = .error e) := by
  rcases ensureIndirect_cases h halloc modified with
    ⟨inode₁, modified₁, s₁, hensure, h₁, hext₁, hfills₁, hind, hmod₁⟩ | ⟨hQ, e, herr⟩
  swap
  · exact .inr ⟨hQ, e, by simp only [inodeMapIndirect, herr, error_bind]⟩
  obtain ⟨s₂, hacq, hmem₂, hused₂⟩ := c.acquire inode₁.entry.indirect.toNat s₁
  obtain ⟨s₃, hrel, hmem₃, hused₃⟩ := c.release inode₁.entry.indirect.toNat s₂
  rw [hmem₂] at hmem₃
  rw [hused₂] at hused₃
  have h₃ : c.Owns base inode₁.entry s₃ := h₁.of_eq hmem₃ hused₃
  have hext₃ : c.Extends base inode s inode₁ s₃ := hext₁.trans (.of_mem_eq inode₁ hmem₃)
  have hfills₃ : ∀ {inode' t}, c.Fills {k} inode₁ s₃ inode' t →
      c.Fills ({inodeMaxBlocks} ∪ {k}) inode s inode' t := by
    intro inode' t hfills
    have hboth := (hfills₁.trans (.of_eq (K := {k}) inode₁ hmem₃ hused₃)).trans hfills
    rwa [Set.union_assoc, Set.union_self] at hboth
  have haddr : inode₁.entry.addr (c.mem s₃) k =
      ((c.mem s₃ inode₁.entry.indirect.toNat).u32 (k - inodeNumDirect)).toNat :=
    InodeEntry.addr_indirect hk hind
  unfold inodeMapIndirect
  simp only [hensure, ok_bind, hacq, hrel, c.bytes]
  by_cases hentry :
      (c.mem s₃ inode₁.entry.indirect.toNat).u32 (k - inodeNumDirect) ≠ 0
  · exact .inl ⟨_, _, _, _, if_pos hentry, ⟨h₃, hext₃, haddr, toNat_eq_zero.not.mpr hentry⟩,
      hfills₃ (.of_eq inode₁ rfl rfl), hmod₁⟩
  · rw [if_neg hentry]
    have hempty : inode₁.entry.slot (c.mem s₃) k = 0 := by
      rw [InodeEntry.slot_of_lt hmax, haddr]
      exact toNat_eq_zero.mpr (not_not.mp hentry)
    rcases halloc _ s₃ _ h₃ (Nat.lt_succ_of_lt hmax) hempty with
      ⟨b, s₄, halloc, hb, hb0, hb32, hmem₄, hused₄⟩ | ⟨hQ, e, herr⟩
    swap
    · exact .inr ⟨hQ, e, by simp only [herr, error_bind]⟩
    obtain ⟨t, hset, hmem, hused⟩ := c.setBytes inode₁.entry.indirect.toNat
      ((c.mem s₄ inode₁.entry.indirect.toNat).setU32 (k - inodeNumDirect) (.ofNat b)) s₄
    -- The new number is stored in the indirect block, through `block_entry`.
    have hblock : c.mem t inode₁.entry.indirect.toNat =
        (c.mem s₄ inode₁.entry.indirect.toNat).setU32 (k - inodeNumDirect) (.ofNat b) := by
      rw [hmem, Function.update_self]
    have hslot : ∀ j < numSlots, inode₁.entry.slot (c.mem t) j =
        Function.update (inode₁.entry.slot (c.mem s₃)) k b j := by
      intro j hj
      rw [slot_setU32 hind hk hblock j hj hmax, hb32, hmem₄, h₃.slot_update hb]
    -- Besides the new block only the indirect one is written.
    have hframe : ∀ x ≠ b, (inode₁.entry.indirect ≠ 0 → x ≠ inode₁.entry.indirect.toNat) →
        c.mem t x = c.mem s₃ x := by
      intro x hx hxi
      rw [hmem, Function.update_of_ne (hxi hind), hmem₄, Function.update_of_ne hx]
    obtain ⟨howns, hext, hfills⟩ := h₃.fill (Nat.lt_succ_of_lt hmax) hempty hb hb0 hslot
      ⟨_, _, rfl⟩ hframe (hused.trans hused₄)
    refine .inl ⟨b, inode₁, true, t, ?_, ⟨howns, hext₃.trans hext, ?_, hb0⟩, hfills₃ hfills, .inl rfl⟩
    · simp only [halloc, ok_bind, hset, hb32]
      rfl
    · rw [← InodeEntry.slot_of_lt hmax, hslot k (Nat.lt_succ_of_lt hmax), Function.update_self]

/-- `inode_map` finds or makes the block for an offset and leaves the others as they are. -/
theorem inodeMap_cases (h : c.Owns base inode.entry s) (halloc : c.AllocOr base Q)
    {offset : Nat} (hoffset : offset < inodeMaxBytes) (modified : Bool) :
    (∃ b inode' modified' t, inodeMap cache inode offset modified s =
      .ok (b, inode', modified', t) ∧ c.Mapped base inode s (offset / blockSize) b inode' t ∧
        c.Fills (slotsFor (offset / blockSize)) inode s inode' t ∧
        (modified' = true ∨ modified' = modified ∧ inode' = inode)) ∨
    (Q ∧ ∃ e, inodeMap cache inode offset modified s = .error e) := by
  unfold inodeMap
  rw [kassert_of hoffset, ok_bind]
  by_cases hk : offset / blockSize < inodeNumDirect
  · have hslots : slotsFor (offset / blockSize) = {offset / blockSize} := by
      ext j
      simp [slotsFor, hk]
    simp only [hk, dif_pos, hslots]
    exact inodeMapDirect_cases h halloc ⟨_, hk⟩ modified
  · have hslots : slotsFor (offset / blockSize) = {inodeMaxBlocks} ∪ {offset / blockSize} := by
      ext j
      simp [slotsFor, hk]
    simp only [hk, dif_neg, not_false_eq_true, hslots]
    exact inodeMapIndirect_cases h halloc hk (div_lt_inodeMaxBlocks hoffset) modified

/-- `inode_map2` returns the address of a mapped block. It allocates nothing and stores nothing,
unlike `inode_map`. -/
theorem inodeMap2_spec {offset : Nat} (hoffset : offset < inodeMaxBytes)
    (haddr : inode.entry.addr (c.mem s) (offset / blockSize) ≠ 0) :
    ∃ t, inodeMap2 cache inode offset s =
        .ok (inode.entry.addr (c.mem s) (offset / blockSize), t) ∧
      c.mem t = c.mem s ∧ c.used t = c.used s := by
  unfold inodeMap2
  rw [kassert_of hoffset, ok_bind]
  by_cases hk : offset / blockSize < inodeNumDirect
  · rw [InodeEntry.addr_direct hk] at haddr ⊢
    simp only [hk, dif_pos]
    rw [kassert_of (toNat_eq_zero.not.mp haddr), ok_bind]
    exact ⟨s, rfl, rfl, rfl⟩
  · have hind : inode.entry.indirect ≠ 0 := by
      intro hzero
      exact haddr (InodeEntry.addr_of_no_indirect hk hzero)
    rw [InodeEntry.addr_indirect hk hind]
    obtain ⟨s₁, hacq, hmem₁, hused₁⟩ := c.acquire inode.entry.indirect.toNat s
    obtain ⟨t, hrel, hmem, hused⟩ := c.release inode.entry.indirect.toNat s₁
    simp only [hk, dif_neg, not_false_eq_true]
    rw [kassert_of hind, ok_bind]
    simp only [ok_bind, hacq, c.bytes, hrel, hmem₁]
    exact ⟨t, rfl, hmem.trans hmem₁, hused.trans hused₁⟩

end BlockCache.Ideal

end KernelAarch64.Fs
