import KernelAarch64.Fs.Inode

/-!
# Calls of the inode layer that returned

What `inode_map` and the loop of `inode_write` do to the inode, over any block cache: they fill
empty addresses, and `*modified` says whether they did.

Nothing is assumed of the cache here. The lemmas take a call that returned apart, by its own code,
and so hold for the cache of structs and for the block cache with its failures as well.
`BlockCache.Keeps` is there to carry an invariant of the cache through the same calls.
-/

namespace KernelAarch64.Fs

/-- What mapping blocks does to an inode: it fills empty addresses. Everything else in it stays, and
so does an address that was there. -/
structure Inode.Grows (inode inode' : Inode) : Prop where
  inodeNo : inode'.inodeNo = inode.inodeNo
  valid : inode'.valid = inode.valid
  numBytes : inode'.entry.numBytes = inode.entry.numBytes
  addrs : ∀ k, inode.entry.addrs k ≠ 0 → inode'.entry.addrs k = inode.entry.addrs k
  indirect : inode.entry.indirect ≠ 0 → inode'.entry.indirect = inode.entry.indirect

namespace Inode.Grows

variable {inode inode' inode'' : Inode}

theorem refl (inode : Inode) : inode.Grows inode :=
  ⟨rfl, rfl, rfl, fun _ _ => rfl, fun _ => rfl⟩

/-- One call after the other. -/
theorem trans (h₁ : inode.Grows inode') (h₂ : inode'.Grows inode'') : inode.Grows inode'' := by
  refine ⟨h₂.inodeNo.trans h₁.inodeNo, h₂.valid.trans h₁.valid, h₂.numBytes.trans h₁.numBytes,
    ?_, ?_⟩
  · intro k hk
    have heq := h₁.addrs k hk
    rw [h₂.addrs k (by rwa [heq]), heq]
  · intro hind
    have heq := h₁.indirect hind
    rw [h₂.indirect (by rwa [heq]), heq]

/-- An empty direct address is filled. -/
theorem setAddr {k : Fin inodeNumDirect} (hk : inode.entry.addrs k = 0) (v : UInt32) :
    inode.Grows (inode.setAddr k v) := by
  refine ⟨rfl, rfl, rfl, ?_, fun _ => rfl⟩
  intro j hj
  have hjk : j ≠ k := by
    rintro rfl
    exact hj hk
  simp [Inode.setAddr, Function.update_of_ne hjk]

theorem setIndirect (hind : inode.entry.indirect = 0) (v : UInt32) :
    inode.Grows (inode.setIndirect v) :=
  ⟨rfl, rfl, rfl, fun _ _ => rfl, fun h => absurd hind h⟩

end Inode.Grows

variable {σ : Type} {cache : BlockCache σ} {inode inode' : Inode} {modified modified' : Bool}
  {s s' : σ} {I : σ → Prop}

/-- What mapping blocks means for the inode and for `*modified`: if the flag is not set, the entry
is as it was. -/
structure Remapped (inode : Inode) (modified : Bool) (inode' : Inode) (modified' : Bool) :
    Prop where
  grows : inode.Grows inode'
  same : modified' = false → inode' = inode
  mono : modified = true → modified' = true

theorem Remapped.refl (inode : Inode) (modified : Bool) :
    Remapped inode modified inode modified :=
  ⟨.refl inode, fun _ => rfl, id⟩

/-- One call after the other; `*modified` is never reset. -/
theorem Remapped.trans {inode₁ inode₂ inode₃ : Inode} {m₁ m₂ m₃ : Bool}
    (h₁ : Remapped inode₁ m₁ inode₂ m₂) (h₂ : Remapped inode₂ m₂ inode₃ m₃) :
    Remapped inode₁ m₁ inode₃ m₃ := by
  refine ⟨h₁.grows.trans h₂.grows, ?_, fun h => h₂.mono (h₁.mono h)⟩
  intro h
  have hm : m₂ = false := by
    rw [Bool.eq_false_iff]
    intro htrue
    rw [h₂.mono htrue] at h
    cases h
  rw [h₂.same h, h₁.same hm]

/-- Calls that keep `I`. With this, what holds of the state of the cache is carried through a
function of the inode layer without looking into the cache. -/
structure BlockCache.Keeps (cache : BlockCache σ) (I : σ → Prop) : Prop where
  acquire : ∀ b s t, I s → cache.acquire b s = .ok t → I t
  release : ∀ b s t, I s → cache.release b s = .ok t → I t
  alloc : ∀ b s t, I s → cache.alloc s = .ok (b, t) → I t
  setBytes : ∀ b d s t, I s → cache.setBytes b d s = .ok t → I t

/-- The indirect block is there already or was allocated now. In the second case the flag is set, so
that the entry will be stored. -/
theorem ensureIndirect_spec (h : ensureIndirect cache inode modified s = .ok (inode', modified', s')) :
    Remapped inode modified inode' modified' ∧ (cache.Keeps I → I s → I s') := by
  unfold ensureIndirect at h
  split at h
  · next hind =>
    obtain ⟨⟨b, t⟩, halloc, h⟩ := bind_eq_ok.mp h
    cases h
    exact ⟨⟨.setIndirect hind _, (nomatch ·), fun _ => rfl⟩,
      fun hI hs => hI.alloc _ _ _ hs halloc⟩
  · cases h
    exact ⟨.refl _ _, fun _ hs => hs⟩

/-- `inode_map` sets `*modified` whenever it assigns to the entry. So a caller that passes the flag
on knows whether the entry has to be stored. -/
theorem inodeMap_remapped {offset b : Nat}
    (h : inodeMap cache inode offset modified s = .ok (b, inode', modified', s')) :
    Remapped inode modified inode' modified' ∧ (cache.Keeps I → I s → I s') := by
  obtain ⟨-, -, h⟩ := bind_eq_ok.mp h
  dsimp only at h
  split at h
  · unfold inodeMapDirect at h
    split at h
    · cases h
      exact ⟨.refl _ _, fun _ hs => hs⟩
    · next hk =>
      obtain ⟨⟨b, t⟩, halloc, h⟩ := bind_eq_ok.mp h
      cases h
      exact ⟨⟨.setAddr (not_not.mp hk) _, (nomatch ·), fun _ => rfl⟩,
        fun hI hs => hI.alloc _ _ _ hs halloc⟩
  · obtain ⟨⟨inode₁, m₁, s₁⟩, hensure, h⟩ := bind_eq_ok.mp h
    obtain ⟨s₂, hacq, h⟩ := bind_eq_ok.mp h
    obtain ⟨s₃, hrel, h⟩ := bind_eq_ok.mp h
    obtain ⟨d, -, h⟩ := bind_eq_ok.mp h
    obtain ⟨hmap, hkeep⟩ := ensureIndirect_spec (I := I) hensure
    have hheld : cache.Keeps I → I s → I s₃ := fun hI hs =>
      hI.release _ _ _ (hI.acquire _ _ _ (hkeep hI hs) hacq) hrel
    dsimp only at h
    split at h
    · cases h
      exact ⟨hmap, hheld⟩
    · obtain ⟨⟨b, s₄⟩, halloc, h⟩ := bind_eq_ok.mp h
      obtain ⟨d', -, h⟩ := bind_eq_ok.mp h
      obtain ⟨s₅, hset, h⟩ := bind_eq_ok.mp h
      cases h
      refine ⟨⟨hmap.grows, (nomatch ·), fun _ => rfl⟩, fun hI hs => ?_⟩
      exact hI.setBytes _ _ _ _ (hI.alloc _ _ _ (hheld hI hs) halloc) hset

/-- One turn of the loop of `inode_write`, taken apart. -/
theorem inodeWriteFrom_succ {offset end' n i : Nat} {src : List UInt8}
    (h : inodeWriteFrom cache offset end' (n + 1) i src inode modified s =
      .ok (inode', modified', s')) :
    ∃ b inode₁ m₁ s₁ s₂ d s₃ s₄, inodeMap cache inode i modified s = .ok (b, inode₁, m₁, s₁) ∧
      cache.acquire b s₁ = .ok s₂ ∧ cache.bytes b s₂ = .ok d ∧
      cache.setBytes b (d.splice (max i offset - i)
        (src.take (min (i + blockSize) end' - i - (max i offset - i)))) s₂ = .ok s₃ ∧
      cache.release b s₃ = .ok s₄ ∧
      inodeWriteFrom cache offset end' n (i + blockSize)
        (src.drop (min (i + blockSize) end' - i - (max i offset - i))) inode₁ m₁ s₄ =
        .ok (inode', modified', s') := by
  obtain ⟨⟨b, inode₁, m₁, s₁⟩, hmap, h⟩ := bind_eq_ok.mp h
  obtain ⟨s₂, hacq, h⟩ := bind_eq_ok.mp h
  obtain ⟨d, hbytes, h⟩ := bind_eq_ok.mp h
  obtain ⟨s₃, hset, h⟩ := bind_eq_ok.mp h
  obtain ⟨s₄, hrel, h⟩ := bind_eq_ok.mp h
  exact ⟨b, inode₁, m₁, s₁, s₂, d, s₃, s₄, hmap, hacq, hbytes, hset, hrel, h⟩

/-- The loop of `inode_write` passes the flag on. If the inode is another one at its end then the
flag is set. -/
theorem inodeWriteFrom_remapped {offset end' n i : Nat} {src : List UInt8}
    (h : inodeWriteFrom cache offset end' n i src inode modified s = .ok (inode', modified', s')) :
    Remapped inode modified inode' modified' ∧ (cache.Keeps I → I s → I s') := by
  induction n generalizing i src inode modified s with
  | zero =>
    cases h
    exact ⟨.refl _ _, fun _ hs => hs⟩
  | succ n ih =>
    obtain ⟨b, inode₁, m₁, s₁, s₂, d, s₃, s₄, hmap, hacq, -, hset, hrel, h⟩ :=
      inodeWriteFrom_succ h
    obtain ⟨hmap₁, hkeep₁⟩ := inodeMap_remapped (I := I) hmap
    obtain ⟨hmap₂, hkeep₂⟩ := ih h
    refine ⟨hmap₁.trans hmap₂, fun hI hs => hkeep₂ hI ?_⟩
    exact hI.release _ _ _ (hI.setBytes _ _ _ _ (hI.acquire _ _ _ (hkeep₁ hI hs) hacq) hset) hrel

/-- Every turn of the loop maps a block below the limit, since `inode_map` asserts this of the
offset. -/
theorem inodeWriteFrom_lt {offset end' n i : Nat} {src : List UInt8}
    (h : inodeWriteFrom cache offset end' n i src inode modified s = .ok (inode', modified', s')) :
    ∀ k < n, i + k * blockSize < inodeMaxBytes := by
  induction n generalizing i src inode modified s with
  | zero =>
    intro k hk
    cases hk
  | succ n ih =>
    obtain ⟨b, inode₁, m₁, s₁, s₂, d, s₃, s₄, hmap, -, -, -, -, hrest⟩ := inodeWriteFrom_succ h
    obtain ⟨_, hlt, -⟩ := bind_eq_ok.mp hmap
    intro k hk
    cases k with
    | zero =>
      rw [Nat.zero_mul]
      exact kassert_eq_ok.mp hlt
    | succ k =>
      have hnext := ih hrest k (Nat.lt_of_succ_lt_succ hk)
      rwa [Nat.succ_mul, Nat.add_comm (k * blockSize), ← Nat.add_assoc]

/-- With room for `count` in a `usize`, `inode_write` runs its loop up to `offset + count`. -/
theorem inodeWrite_eq_ok {sb : SuperBlock} {src : List UInt8} {offset : Nat} {t : σ}
    (hsrc : src.length < 2 ^ 64)
    (h : inodeWrite sb cache inode src offset s = .ok (inode', t)) :
    offset + src.length ≤ inodeMaxBytes ∧ ∃ inode₁ modify s₁,
      inodeWriteFrom cache offset (offset + src.length)
        ((offset + src.length - roundDown offset) / blockSize + 1) (roundDown offset) src inode
        false s = .ok (inode₁, modify, s₁) ∧
      (if modify = true ∨ inode₁.entry.numBytes.toNat < offset + src.length then
        inodeSync sb cache (inode₁.setNumBytes
          (.ofNat (max (offset + src.length) inode₁.entry.numBytes.toNat))) true s₁
      else .ok (inode₁, s₁)) = .ok (inode', t) := by
  obtain ⟨_, hoff, h⟩ := bind_eq_ok.mp h
  obtain ⟨_, hmax, h⟩ := bind_eq_ok.mp h
  obtain ⟨_, hle, h⟩ := bind_eq_ok.mp h
  rw [kassert_eq_ok] at hoff hmax hle
  have hend : (offset + src.length) % 2 ^ 64 = offset + src.length := by
    have := inode.entry.numBytes.toNat_lt
    omega
  rw [hend] at hmax
  simp only [hend] at h
  obtain ⟨⟨inode₁, modify, s₁⟩, hloop, h⟩ := bind_eq_ok.mp h
  exact ⟨hmax, inode₁, modify, s₁, hloop, h⟩

/-- The last turn of the loop starts at or below the end of the bytes, so this end is below the
limit, too. -/
theorem inodeWrite_end_lt {sb : SuperBlock} {src : List UInt8} {offset : Nat} {t : σ}
    (hsrc : src.length < 2 ^ 64) (h : inodeWrite sb cache inode src offset s = .ok (inode', t)) :
    offset + src.length < inodeMaxBytes := by
  obtain ⟨hmax, _, _, _, hloop, -⟩ := inodeWrite_eq_ok hsrc h
  have hlast := inodeWriteFrom_lt hloop _ (Nat.lt_succ_self _)
  unfold roundDown inodeMaxBytes inodeMaxBlocks inodeNumDirect inodeNumIndirect blockSize at *
  omega

end KernelAarch64.Fs
