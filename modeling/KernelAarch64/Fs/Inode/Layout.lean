import KernelAarch64.Fs.Inode.Calls

/-!
# Where in a `Block` the inode layer reads and writes

`Block` is a C struct whose last member is `data`. The inode layer gets a `Block *` from the cache
and reaches the content of the block through casts of this pointer: `(u8 *)block`, `(u32 *)block`
and `(IndirectBlock *)block`. The casts point to the beginning of the struct, not to `data` (as
`get_entry` and the helper `get_addrs` do, which nothing calls).

The functions in `Cast` are those of `inode.c` once more, with each access through a cast written
out and logged. Without the log they are the functions of `Fs.Inode`.

The main result is `inode_onlyData_iff`. `Access.onlyData_iff` is what decides: a cast reaches
`data` at the place it means only if it reads nothing. So the rest of the module counts the accesses
that each function makes; the functions are written once more with their accesses logged (`Cast`),
and the `map_` lemmas say that they are those of `Fs.Inode` when the log is dropped.
-/

namespace KernelAarch64.Fs

open KernelAarch64.Lib

/-! ## The layout of `Block`

Computed from the sizes and alignments of the members, as the compiler for this architecture does.
-/

/-- The members of `Block` in the order of their declaration, which is the order in which a compiler
lays them out. -/
inductive BlockField where
  | blockNo
  | node
  | acquired
  | pinned
  | lock
  | valid
  | data
  deriving Repr, DecidableEq

namespace BlockField

/-- `sizeof` of a member. A `SleepLock` is a `SpinLock` (a `bool` and two pointers) and a `bool`. -/
def size : BlockField → Nat
  | blockNo => 8
  | node => 16
  | acquired => 1
  | pinned => 1
  | lock => 32
  | valid => 1
  | data => blockSize

/-- The alignment of a member: that of the largest scalar in it. `data` is an array of bytes, so it
follows `valid` without a gap. -/
def align : BlockField → Nat
  | blockNo => 8
  | node => 8
  | acquired => 1
  | pinned => 1
  | lock => 8
  | valid => 1
  | data => 1

/-- Members in order, each at the next offset that its alignment allows. This is the rule of the ABI
for a struct that is not packed. -/
def layoutFrom : Nat → List BlockField → List (BlockField × Nat)
  | _, [] => []
  | n, f :: fields =>
    let offset := (n + (f.align - 1)) / f.align * f.align
    (f, offset) :: layoutFrom (offset + f.size) fields

/-- The members of `Block` with their offsets. -/
def layout : List (BlockField × Nat) :=
  layoutFrom 0 [blockNo, node, acquired, pinned, lock, valid, data]

/-- The member that byte `i` of a `Block` belongs to, and its place in the member. -/
def fieldAt (i : Nat) : Option (BlockField × Nat) :=
  (layout.find? fun p => p.2 ≤ i ∧ i < p.2 + p.1.size).map fun p => (p.1, i - p.2)

/-- The members before `data`. -/
def header : List (BlockField × Nat) :=
  layoutFrom 0 [blockNo, node, acquired, pinned, lock, valid]

/-- `data` is the last member, at offset 65. -/
theorem layout_eq : layout = header ++ [(data, 65)] := by decide

theorem header_le : ∀ p ∈ header, p.1 ≠ data ∧ p.2 + p.1.size ≤ 65 := by decide

/-- The bytes of `data` are those from byte 65 of the struct on. A cast of the block pointer starts
65 bytes before them. -/
theorem fieldAt_eq_data {i k : Nat} :
    fieldAt i = some (data, k) ↔ i = 65 + k ∧ k < blockSize := by
  rw [fieldAt, layout_eq, List.find?_append]
  cases hfind : header.find? fun p => p.2 ≤ i ∧ i < p.2 + p.1.size with
  | some p =>
    have hle := header_le p (List.mem_of_find?_eq_some hfind)
    have hp := List.find?_some hfind
    simp only [decide_eq_true_eq] at hp
    simp only [Option.some_or, Option.map_some, Option.some.injEq, Prod.mk.injEq, hle.1, false_and,
      false_iff]
    omega
  | none =>
    simp only [Option.none_or, List.find?_cons, List.find?_nil]
    simp only [size]
    by_cases hi : 65 ≤ i ∧ i < 65 + blockSize
    · simp only [hi, and_self, decide_true, Option.map_some, Option.some.injEq, Prod.mk.injEq,
        true_and]
      omega
    · simp only [hi, decide_false, Option.map_none, reduceCtorEq, false_iff]
      omega

end BlockField

/-- The byte of a `Block` that the casts of a `Block *` point to. -/
def castOffset : Nat := 0

/-! ## Bytes of a struct

What the casts take for the content of a block are the first 512 bytes of the struct, which are the
members before `data` and the first part of `data`. -/

/-- The offset of `data` in a `Block`, by `BlockField.layout`. -/
def dataOffset : Nat := 65

example : BlockField.fieldAt dataOffset = some (.data, 0) := by decide

/-- What the casts of a `Block *` read: the members before `data`, then bytes of `data`. -/
def structBytes (head : Nat → UInt8) (d : BlockData) : BlockData := fun k =>
  if k < dataOffset then head k else d.byte (k - dataOffset)

/-- What `data` is after the bytes that the casts reach have become `bytes`. -/
def structData (d bytes : BlockData) : BlockData := fun k =>
  if k + dataOffset < blockSize then bytes.byte (k + dataOffset) else d k

/-- The bytes with the members before `data` as they are. -/
def withHeader (head : Nat → UInt8) (bytes : BlockData) : BlockData := fun k =>
  if k < dataOffset then head k else bytes k

/-- The bytes leave the members before `data` as they are. -/
def SameHeader (head : Nat → UInt8) (bytes : BlockData) : Prop :=
  ∀ k < dataOffset, bytes.byte k = head k

instance (head : Nat → UInt8) (bytes : BlockData) : Decidable (SameHeader head bytes) :=
  inferInstanceAs (Decidable (∀ k < dataOffset, bytes.byte k = head k))

/-- The casts reach a part of `data`. -/
theorem dataOffset_lt : dataOffset < blockSize := by decide

theorem sameHeader_withHeader (head : Nat → UInt8) (bytes : BlockData) :
    SameHeader head (withHeader head bytes) := by
  intro k hk
  rw [BlockData.byte_of_lt _ (hk.trans dataOffset_lt), withHeader, if_pos hk]

/-- Bytes that go to no place of a member before `data`. -/
theorem sameHeader_splice {d : BlockData} {start : Nat} {src : List UInt8}
    (h : ∀ k, start ≤ k → k < start + src.length → ¬ k < dataOffset) :
    SameHeader d.byte (d.splice start src) := by
  intro k hk
  rw [BlockData.byte_splice d start src (hk.trans dataOffset_lt)]
  exact if_neg fun hin => h k hin.1 hin.2 hk

/-- Behind the header the casts read `data`, 65 bytes early. -/
theorem byte_structBytes {head : Nat → UInt8} {d : BlockData} {k : Nat} (hk : dataOffset ≤ k)
    (hlt : k < blockSize) : (structBytes head d).byte k = d.byte (k - dataOffset) := by
  rw [BlockData.byte_of_lt _ hlt, structBytes, if_neg (Nat.not_lt.mpr hk)]

/-- At first the casts read the header. -/
theorem byte_structBytes_head {head : Nat → UInt8} {d : BlockData} {k : Nat} (hk : k < dataOffset) :
    (structBytes head d).byte k = head k := by
  rw [BlockData.byte_of_lt _ (hk.trans dataOffset_lt), structBytes, if_pos hk]

/-- What was written behind the header is in `data`, 65 bytes early. -/
theorem byte_structData {d bytes : BlockData} {k : Nat} (hk : dataOffset ≤ k)
    (hlt : k < blockSize) : (structData d bytes).byte (k - dataOffset) = bytes.byte k := by
  have hback : k - dataOffset + dataOffset = k := Nat.sub_add_cancel hk
  rw [BlockData.byte_of_lt _ (Nat.lt_of_le_of_lt (Nat.sub_le _ _) hlt), structData]
  simp only [hback, if_pos hlt]

/-! ## Accesses -/

/-- An access through a cast to the `count` bytes from `offset` on of what is taken for the content
of a block. -/
structure Access where
  block : Nat
  offset : Nat
  count : Nat
  deriving Repr, DecidableEq

/-- Each byte of the access is the byte of `data` that it is taken for. -/
def Access.OnlyData (a : Access) : Prop :=
  ∀ i < a.count, BlockField.fieldAt (castOffset + a.offset + i) = some (.data, a.offset + i)

/-- The accesses go to `data` only. -/
def OnlyData (log : List Access) : Prop := ∀ a ∈ log, a.OnlyData

/-- A cast points below `data`, so only an empty access is right. -/
theorem Access.onlyData_iff {a : Access} : a.OnlyData ↔ a.count = 0 := by
  constructor
  · intro h
    by_contra hne
    have hfirst := BlockField.fieldAt_eq_data.mp (h 0 (Nat.pos_of_ne_zero hne))
    unfold castOffset at hfirst
    omega
  · intro h i hi
    omega

/-! ## The calls with their accesses

The same code as in `Fs.Inode`, with `load`, `store`, `loadU32` and `storeU32` where the source
dereferences a cast. -/

variable {σ : Type}

namespace BlockCache

/-- The cache with a log beside its state. Its own calls are not logged; the accesses through casts
are, by the functions below. -/
def logged (cache : BlockCache σ) : BlockCache (σ × List Access) where
  acquire b s := (cache.acquire b s.1).map (·, s.2)
  release b s := (cache.release b s.1).map (·, s.2)
  sync b s := (cache.sync b s.1).map (·, s.2)
  alloc s := (cache.alloc s.1).map fun r => (r.1, r.2, s.2)
  free b s := (cache.free b s.1).map (·, s.2)
  data b s := cache.data b s.1
  setData b d s := (cache.setData b d s.1).map (·, s.2)
  bytes b s := cache.bytes b s.1
  setBytes b d s := (cache.setBytes b d s.1).map (·, s.2)

/-- `memcpy` of `n` bytes from `(u8 *)block + offset`: the bytes of the struct there, and an entry
in the log for the access. -/
def load (cache : BlockCache σ) (b offset n : Nat) (s : σ × List Access) :
    Except Stop (List UInt8 × σ × List Access) := do
  let d ← cache.bytes b s.1
  return (d.slice offset n, s.1, s.2 ++ [⟨b, offset, n⟩])

/-- `memcpy` of `bytes` to `(u8 *)block + offset`: they replace the bytes of the struct there, and
the access is logged. -/
def store (cache : BlockCache σ) (b offset : Nat) (bytes : List UInt8) (s : σ × List Access) :
    Except Stop (σ × List Access) := do
  let d ← cache.bytes b s.1
  let t ← cache.setBytes b (d.splice offset bytes) s.1
  return (t, s.2 ++ [⟨b, offset, bytes.length⟩])

/-- Element `i` of the `u32` at `(u32 *)block`: the four bytes of the struct from `4 * i` on, least
significant byte first. -/
def loadU32 (cache : BlockCache σ) (b i : Nat) (s : σ × List Access) :
    Except Stop (UInt32 × σ × List Access) := do
  let (bytes, s) ← cache.load b (4 * i) 4 s
  return (leU32 (fun k => bytes.getD k 0) 0, s)

/-- An assignment to element `i` of the `u32` at `(u32 *)block`. -/
def storeU32 (cache : BlockCache σ) (b i : Nat) (v : UInt32) (s : σ × List Access) :
    Except Stop (σ × List Access) :=
  cache.store b (4 * i) ((List.range 4).map (leByte v.toNat)) s

end BlockCache

namespace Cast

/-- The indirect branch of `inode_map`, with the access through `block_entry` in the log. The struct
is that of the indirect block. -/
def inodeMapIndirect (cache : BlockCache σ) (inode : Inode) (k : Nat) (modified : Bool)
    (s : σ × List Access) : Except Stop (Nat × Inode × Bool × σ × List Access) := do
  let (inode, modified, s) ← ensureIndirect cache.logged inode modified s
  let ind := inode.entry.indirect.toNat
  let s ← cache.logged.acquire ind s
  let s ← cache.logged.release ind s
  let (v, s) ← cache.loadU32 ind k s
  if v ≠ 0 then return (v.toNat, inode, modified, s)
  else
    let (b, s) ← cache.logged.alloc s
    let s ← cache.storeU32 ind k (.ofNat b) s
    return ((UInt32.ofNat b).toNat, inode, true, s)

/-- `inode_map` with its accesses logged. The direct branch uses the entry of the inode alone and
has no access to log. -/
def inodeMap (cache : BlockCache σ) (inode : Inode) (offset : Nat) (modified : Bool)
    (s : σ × List Access) : Except Stop (Nat × Inode × Bool × σ × List Access) := do
  kassert (offset < inodeMaxBytes) "offset < INODE_MAX_BYTES"
  let k := offset / blockSize
  if h : k < inodeNumDirect then inodeMapDirect cache.logged inode ⟨k, h⟩ modified s
  else inodeMapIndirect cache inode (k - inodeNumDirect) modified s

/-- `inode_map2` with its accesses logged: one access to the indirect block, if the position needs
it. -/
def inodeMap2 (cache : BlockCache σ) (inode : Inode) (offset : Nat) (s : σ × List Access) :
    Except Stop (Nat × σ × List Access) := do
  kassert (offset < inodeMaxBytes) "offset < INODE_MAX_BYTES"
  let k := offset / blockSize
  if h : k < inodeNumDirect then
    kassert (inode.entry.addrs ⟨k, h⟩ ≠ 0) "entry->addrs[block_index]"
    return ((inode.entry.addrs ⟨k, h⟩).toNat, s)
  else
    kassert (inode.entry.indirect ≠ 0) "entry->indirect"
    let ind := inode.entry.indirect.toNat
    let s ← cache.logged.acquire ind s
    let (v, s) ← cache.loadU32 ind (k - inodeNumDirect) s
    let s ← cache.logged.release ind s
    return (v.toNat, s)

/-- The loop of `inode_read` from `i` on, with `n` turns to go and the accesses of each turn in the
log. -/
def inodeReadFrom (cache : BlockCache σ) (inode : Inode) (offset end' : Nat) :
    Nat → Nat → σ × List Access → Except Stop (List UInt8 × σ × List Access)
  | 0, _, s => .ok ([], s)
  | n + 1, i, s => do
    let start := max i offset - i
    let term := min (i + blockSize) end' - i
    let (b, s) ← inodeMap2 cache inode i s
    let s ← cache.logged.acquire b s
    let (bytes, s) ← cache.load b start (term - start) s
    let s ← cache.logged.release b s
    let (rest, s) ← inodeReadFrom cache inode offset end' n (i + blockSize) s
    return (bytes ++ rest, s)

/-- `inode_read` with its accesses logged. The assertions are the same, and so is what `dest`
receives. -/
def inodeRead (cache : BlockCache σ) (inode : Inode) (offset count : Nat)
    (s : σ × List Access) : Except Stop (List UInt8 × σ × List Access) := do
  let end' := (offset + count) % 2 ^ 64
  kassert (offset ≤ inode.entry.numBytes.toNat) "offset <= entry->num_bytes"
  kassert (end' ≤ inode.entry.numBytes.toNat) "end <= entry->num_bytes"
  kassert (offset ≤ end') "offset <= end"
  let i := roundDown offset
  inodeReadFrom cache inode offset end' ((end' - i + (blockSize - 1)) / blockSize) i s

/-- The loop of `inode_write` from `i` on, with `n` turns to go and the accesses of each turn in the
log. -/
def inodeWriteFrom (cache : BlockCache σ) (offset end' : Nat) :
    Nat → Nat → List UInt8 → Inode → Bool → σ × List Access →
      Except Stop (Inode × Bool × σ × List Access)
  | 0, _, _, inode, modify, s => .ok (inode, modify, s)
  | n + 1, i, src, inode, modify, s => do
    let start := max i offset - i
    let term := min (i + blockSize) end' - i
    let (b, inode, modify, s) ← inodeMap cache inode i modify s
    let s ← cache.logged.acquire b s
    let s ← cache.store b start (src.take (term - start)) s
    let s ← cache.logged.release b s
    inodeWriteFrom cache offset end' n (i + blockSize) (src.drop (term - start)) inode modify s

/-- `inode_write` with its accesses logged. The store of the entry by `inode_sync` goes through
`data` and is not among them. -/
def inodeWrite (sb : SuperBlock) (cache : BlockCache σ) (inode : Inode) (src : List UInt8)
    (offset : Nat) (s : σ × List Access) : Except Stop (Inode × σ × List Access) := do
  let end' := (offset + src.length) % 2 ^ 64
  kassert (offset ≤ inode.entry.numBytes.toNat) "offset <= entry->num_bytes"
  kassert (end' ≤ inodeMaxBytes) "end <= INODE_MAX_BYTES"
  kassert (offset ≤ end') "offset <= end"
  let i := roundDown offset
  let (inode, modify, s) ←
    inodeWriteFrom cache offset end' ((end' - i) / blockSize + 1) i src inode false s
  if modify = true ∨ inode.entry.numBytes.toNat < end' then
    inodeSync sb cache.logged
      (inode.setNumBytes (.ofNat (max end' inode.entry.numBytes.toNat))) true s
  else return (inode, s)

/-- One turn of the second loop of `inode_clear`; `b` is the indirect block. The element is read
through a cast. -/
def clearIndirect (cache : BlockCache σ) (b : Nat) (s : σ × List Access) (i : Nat) :
    Except Stop (σ × List Access) := do
  let (v, s) ← cache.loadU32 b i s
  if v ≠ 0 then cache.logged.free v.toNat s else return s

/-- The part of `inode_clear` that frees the indirect block and the blocks in it, with one access
for each element. -/
def freeIndirect (cache : BlockCache σ) (inode : Inode) (s : σ × List Access) :
    Except Stop (σ × List Access) := do
  if inode.entry.indirect ≠ 0 ∧ inode.valid = true then
    let b := inode.entry.indirect.toNat
    let s ← cache.logged.acquire b s
    let s ← (List.range inodeNumIndirect).foldlM (clearIndirect cache b) s
    let s ← cache.logged.release b s
    cache.logged.free b s
  else return s

/-- `inode_clear` with its accesses logged. Its first loop uses the entry of the inode alone. -/
def inodeClear (sb : SuperBlock) (cache : BlockCache σ) (inode : Inode) (s : σ × List Access) :
    Except Stop (Inode × σ × List Access) := do
  let (inode, s) ← (List.finRange inodeNumDirect).foldlM (clearDirect cache.logged) (inode, s)
  let s ← freeIndirect cache inode s
  inodeSync sb cache.logged ((inode.setIndirect 0).setNumBytes 0) true s

end Cast

/-! ## Without the log

One lemma for each function: forgetting the log gives the function of `Fs.Inode`. They are proved by
going through the code of both in step. -/

section Erase

variable {α β α' β' : Type} {cache : BlockCache σ} {s : σ × List Access}

namespace BlockData

/-- An assignment to a `u32` is a `memcpy` of its bytes, the lowest of them first. -/
theorem splice_leByte (d : BlockData) (i : Nat) (v : UInt32) :
    d.splice (4 * i) ((List.range 4).map (leByte v.toNat)) = d.setU32 i v := by
  funext k
  simp only [splice, setU32, List.length_map, List.length_range]
  by_cases hk : k.val / 4 = i
  · have hlt : k.val - 4 * i < 4 := by omega
    have hmod : k.val - 4 * i = k.val % 4 := by omega
    rw [if_pos (by omega), if_pos hk, hmod]
    simp [List.getD_eq_getElem?_getD, Nat.mod_lt]
  · rw [if_neg (by omega), if_neg hk]

end BlockData

namespace BlockCache

/-- A `load` as the first step of a call. -/
theorem load_bind (b offset n : Nat) (g : List UInt8 × σ × List Access → Except Stop β) :
    (cache.load b offset n s >>= g) =
      cache.bytes b s.1 >>= fun d => g (d.slice offset n, s.1, s.2 ++ [⟨b, offset, n⟩]) := by
  unfold load
  cases cache.bytes b s.1 <;> rfl

/-- A `loadU32` as the first step of a call. -/
theorem loadU32_bind (b i : Nat) (g : UInt32 × σ × List Access → Except Stop β) :
    (cache.loadU32 b i s >>= g) =
      cache.bytes b s.1 >>= fun d => g (d.u32 i, s.1, s.2 ++ [⟨b, 4 * i, 4⟩]) := by
  unfold loadU32 load
  cases cache.bytes b s.1 <;> rfl

/-- A `store` as the first step of a call. -/
theorem store_bind (b offset : Nat) (bytes : List UInt8)
    (g : σ × List Access → Except Stop β) :
    (cache.store b offset bytes s >>= g) = cache.bytes b s.1 >>= fun d =>
      cache.setBytes b (d.splice offset bytes) s.1 >>= fun t =>
        g (t, s.2 ++ [⟨b, offset, bytes.length⟩]) := by
  unfold store
  cases cache.bytes b s.1 with
  | error e => rfl
  | ok d =>
    simp only [ok_bind]
    cases cache.setBytes b (d.splice offset bytes) s.1 <;> rfl

/-- A `storeU32` as the first step of a call. -/
theorem storeU32_bind (b i : Nat) (v : UInt32) (g : σ × List Access → Except Stop β) :
    (cache.storeU32 b i v s >>= g) = cache.bytes b s.1 >>= fun d =>
      cache.setBytes b (d.setU32 i v) s.1 >>= fun t => g (t, s.2 ++ [⟨b, 4 * i, 4⟩]) := by
  simp only [storeU32, store_bind, BlockData.splice_leByte, List.length_map, List.length_range]

end BlockCache

/-! The functions that `Cast` shares with `Fs.Inode` do not use a cast: they keep the log. -/

theorem ensureIndirect_logged (inode : Inode) (modified : Bool) :
    ensureIndirect cache.logged inode modified s =
      (ensureIndirect cache inode modified s.1).map fun r => (r.1, r.2.1, r.2.2, s.2) := by
  unfold ensureIndirect
  split
  · exact bind_eq_map fun _ => rfl
  · rfl

theorem inodeMapDirect_logged (inode : Inode) (k : Fin inodeNumDirect) (modified : Bool) :
    inodeMapDirect cache.logged inode k modified s =
      (inodeMapDirect cache inode k modified s.1).map
        fun r => (r.1, r.2.1, r.2.2.1, r.2.2.2, s.2) := by
  unfold inodeMapDirect
  split
  · rfl
  · exact bind_eq_map fun _ => rfl

theorem clearDirect_logged (inode : Inode) (i : Fin inodeNumDirect) :
    clearDirect cache.logged (inode, s) i =
      (clearDirect cache (inode, s.1) i).map fun r => (r.1, r.2, s.2) := by
  unfold clearDirect
  dsimp only
  split
  · split
    · exact bind_eq_map fun _ => rfl
    · rfl
  · rfl

theorem inodeSync_logged (sb : SuperBlock) (inode : Inode) (doWrite : Bool) :
    inodeSync sb cache.logged inode doWrite s =
      (inodeSync sb cache inode doWrite s.1).map fun r => (r.1, r.2, s.2) := by
  apply bind_eq_map
  intro s₁
  apply bind_congr_map
  intro d
  split_ifs
  · rfl
  · rfl
  · exact bind_eq_map fun _ => rfl
  · exact bind_eq_map fun _ => bind_eq_map fun _ => bind_eq_map fun _ => rfl
  · exact bind_eq_map fun _ => rfl

namespace Cast

/-- Without the log, this is the indirect branch of `inode_map`. -/
theorem map_inodeMapIndirect (inode : Inode) (k : Nat) (modified : Bool) :
    (inodeMapIndirect cache inode k modified s).map
        (Prod.map id (Prod.map id (Prod.map id Prod.fst))) =
      Fs.inodeMapIndirect cache inode k modified s.1 := by
  refine map_bind_eq (f := Prod.map id (Prod.map id Prod.fst)) ?_ fun r => ?_
  · rw [ensureIndirect_logged]
    cases ensureIndirect cache inode modified s.1 <;> rfl
  refine map_bind_eq map_map_fst fun s₁ => ?_
  refine map_bind_eq map_map_fst fun s₂ => ?_
  rw [BlockCache.loadU32_bind]
  refine map_bind_eq (congrFun Except.map_id _) fun d => ?_
  dsimp only [id]
  split
  · rfl
  refine map_bind_eq map_map_snd fun r' => ?_
  rw [BlockCache.storeU32_bind]
  refine map_bind_eq (congrFun Except.map_id _) fun d' => ?_
  exact map_bind_eq (congrFun Except.map_id _) fun _ => rfl

/-- Without the log, this is `inode_map`. -/
theorem map_inodeMap (inode : Inode) (offset : Nat) (modified : Bool) :
    (inodeMap cache inode offset modified s).map
        (Prod.map id (Prod.map id (Prod.map id Prod.fst))) =
      Fs.inodeMap cache inode offset modified s.1 := by
  refine map_bind_eq (congrFun Except.map_id _) fun _ => ?_
  dsimp only
  split
  · rw [inodeMapDirect_logged]
    cases inodeMapDirect cache inode _ modified s.1 <;> rfl
  · exact map_inodeMapIndirect _ _ _

/-- Without the log, this is `inode_map2`. -/
theorem map_inodeMap2 (inode : Inode) (offset : Nat) :
    (inodeMap2 cache inode offset s).map (Prod.map id Prod.fst) =
      Fs.inodeMap2 cache inode offset s.1 := by
  refine map_bind_eq (congrFun Except.map_id _) fun _ => ?_
  dsimp only
  split
  · exact map_bind_eq (congrFun Except.map_id _) fun _ => rfl
  refine map_bind_eq (congrFun Except.map_id _) fun _ => ?_
  refine map_bind_eq map_map_fst fun s₁ => ?_
  rw [BlockCache.loadU32_bind]
  refine map_bind_eq (congrFun Except.map_id _) fun d => ?_
  exact map_bind_eq map_map_fst fun _ => rfl

/-- Without the log, this is the loop of `inode_read`. -/
theorem map_inodeReadFrom (inode : Inode) (offset end' n i : Nat) :
    (inodeReadFrom cache inode offset end' n i s).map (Prod.map id Prod.fst) =
      Fs.inodeReadFrom cache inode offset end' n i s.1 := by
  induction n generalizing i s with
  | zero => rfl
  | succ n ih =>
    refine map_bind_eq (map_inodeMap2 inode i) fun r => ?_
    refine map_bind_eq map_map_fst fun s₁ => ?_
    rw [BlockCache.load_bind]
    refine map_bind_eq (congrFun Except.map_id _) fun d => ?_
    refine map_bind_eq map_map_fst fun s₂ => ?_
    exact map_bind_eq (ih _) fun _ => rfl

/-- Without the log, this is `inode_read`. -/
theorem map_inodeRead (inode : Inode) (offset count : Nat) :
    (inodeRead cache inode offset count s).map (Prod.map id Prod.fst) =
      Fs.inodeRead cache inode offset count s.1 := by
  refine map_bind_eq (congrFun Except.map_id _) fun _ => ?_
  refine map_bind_eq (congrFun Except.map_id _) fun _ => ?_
  refine map_bind_eq (congrFun Except.map_id _) fun _ => ?_
  exact map_inodeReadFrom _ _ _ _ _

/-- Without the log, this is the loop of `inode_write`. -/
theorem map_inodeWriteFrom (offset end' n i : Nat) (src : List UInt8) (inode : Inode)
    (modify : Bool) :
    (inodeWriteFrom cache offset end' n i src inode modify s).map
        (Prod.map id (Prod.map id Prod.fst)) =
      Fs.inodeWriteFrom cache offset end' n i src inode modify s.1 := by
  induction n generalizing i src inode modify s with
  | zero => rfl
  | succ n ih =>
    refine map_bind_eq (map_inodeMap inode i modify) fun r => ?_
    refine map_bind_eq map_map_fst fun s₁ => ?_
    rw [BlockCache.store_bind]
    refine map_bind_eq (congrFun Except.map_id _) fun d => ?_
    refine map_bind_eq (congrFun Except.map_id _) fun t => ?_
    refine map_bind_eq map_map_fst fun s₂ => ?_
    exact ih _ _ _ _

/-- Without the log, this is `inode_sync`. -/
theorem map_inodeSync (sb : SuperBlock) (inode : Inode) (doWrite : Bool) :
    (inodeSync sb cache.logged inode doWrite s).map (Prod.map id Prod.fst) =
      inodeSync sb cache inode doWrite s.1 := by
  rw [inodeSync_logged]
  exact map_map_snd

/-- Without the log, this is `inode_write`. -/
theorem map_inodeWrite (sb : SuperBlock) (inode : Inode) (src : List UInt8) (offset : Nat) :
    (inodeWrite sb cache inode src offset s).map (Prod.map id Prod.fst) =
      Fs.inodeWrite sb cache inode src offset s.1 := by
  refine map_bind_eq (congrFun Except.map_id _) fun _ => ?_
  refine map_bind_eq (congrFun Except.map_id _) fun _ => ?_
  refine map_bind_eq (congrFun Except.map_id _) fun _ => ?_
  refine map_bind_eq (map_inodeWriteFrom _ _ _ _ _ _ _) fun r => ?_
  dsimp only [Prod.map, id]
  split
  · exact map_inodeSync _ _ _
  · rfl

/-- Without the log, this is `inode_clear`. The same for the other functions above: they differ from
those of the source by the log only. -/
theorem map_inodeClear (sb : SuperBlock) (inode : Inode) :
    (inodeClear sb cache inode s).map (Prod.map id Prod.fst) =
      Fs.inodeClear sb cache inode s.1 := by
  refine map_bind_eq (f := Prod.map id Prod.fst) (map_foldlM_eq ?_ _ _) fun r => ?_
  · intro r i
    obtain ⟨inode, s⟩ := r
    rw [clearDirect_logged]
    exact map_map_snd
  refine map_bind_eq (f := Prod.fst) ?_ fun s₁ => map_inodeSync _ _ _
  unfold freeIndirect Fs.freeIndirect
  dsimp only [Prod.map, id]
  split
  · refine map_bind_eq map_map_fst fun s₁ => ?_
    refine map_bind_eq (map_foldlM_eq ?_ _ _) fun s₂ => ?_
    · intro s i
      unfold clearIndirect
      rw [BlockCache.loadU32_bind]
      refine map_bind_eq (congrFun Except.map_id _) fun d => ?_
      dsimp only [id]
      split
      · exact map_map_fst
      · rfl
    refine map_bind_eq map_map_fst fun s₃ => ?_
    exact map_map_fst
  · rfl

end Cast

end Erase

/-! ## The log

`Adds P` says of a piece of code that all its accesses are right exactly if `P`. The condition of a
sequence is the conjunction, and that of a loop is about each of its turns. -/

section Log

variable {α : Type} {cache : BlockCache σ} {inode inode' : Inode} {modified modified' : Bool}
  {s s' t u : σ × List Access} {P Q : Prop}

/-- From `s` to `s'` there were accesses, and they went to `data` only if and only if `P`. -/
def Adds (P : Prop) (s s' : σ × List Access) : Prop :=
  ∃ log, s'.2 = s.2 ++ log ∧ (OnlyData log ↔ P)

theorem Adds.of_eq (h : s'.2 = s.2) : Adds True s s' := by
  refine ⟨[], by simpa using h, iff_true_intro ?_⟩
  intro a ha
  cases ha

/-- The accesses of two pieces of code. -/
theorem Adds.trans (h₁ : Adds P s t) (h₂ : Adds Q t u) : Adds (P ∧ Q) s u := by
  obtain ⟨l₁, hl₁, hP⟩ := h₁
  obtain ⟨l₂, hl₂, hQ⟩ := h₂
  refine ⟨l₁ ++ l₂, by rw [hl₂, hl₁, List.append_assoc], ?_⟩
  rw [← hP, ← hQ]
  exact List.forall_mem_append

/-- The condition put in other words. -/
theorem Adds.congr (h : Adds P s t) (hPQ : P ↔ Q) : Adds Q s t := by
  obtain ⟨l, hl, hP⟩ := h
  exact ⟨l, hl, hP.trans hPQ⟩

/-- What is done without a cast does not count. -/
theorem Adds.of_eq_trans (h₁ : t.2 = s.2) (h₂ : Adds P t u) : Adds P s u :=
  ((Adds.of_eq h₁).trans h₂).congr (iff_of_eq (true_and P))

/-- What is done without a cast afterwards does not count either. -/
theorem Adds.trans_of_eq (h₁ : Adds P s t) (h₂ : u.2 = t.2) : Adds P s u :=
  (h₁.trans (Adds.of_eq h₂)).congr (iff_of_eq (and_true P))

theorem Adds.access {a : Access} (h : s'.2 = s.2 ++ [a]) : Adds (a.count = 0) s s' := by
  refine ⟨[a], h, ?_⟩
  rw [← Access.onlyData_iff]
  exact List.forall_mem_singleton

theorem Adds.onlyData_iff {x y : σ} {log : List Access} (h : Adds P (x, []) (y, log)) :
    OnlyData log ↔ P := by
  obtain ⟨l, hl, hP⟩ := h
  rw [List.nil_append] at hl
  rwa [← hl] at hP

/-- A call without a cast leaves the log. -/
theorem snd_of_map {x : Except Stop σ} {log : List Access} (h : x.map (·, log) = .ok s') :
    s'.2 = log := by
  obtain ⟨a, -, rfl⟩ := map_eq_ok h
  rfl

namespace BlockCache

/-- Four bytes are read, so this one is never right. -/
theorem loadU32_adds {b i : Nat} {v : UInt32} (h : cache.loadU32 b i s = .ok (v, s')) :
    Adds False s s' := by
  obtain ⟨⟨bytes, t⟩, hload, h⟩ := bind_eq_ok.mp h
  obtain ⟨d, -, hload⟩ := bind_eq_ok.mp hload
  cases hload
  cases h
  exact (Adds.access rfl).congr (iff_of_false (by simp) id)

/-- A `memcpy` of no bytes is right. -/
theorem load_adds {b offset n : Nat} {bytes : List UInt8}
    (h : cache.load b offset n s = .ok (bytes, s')) : Adds (n = 0) s s' := by
  obtain ⟨d, -, h⟩ := bind_eq_ok.mp h
  cases h
  exact Adds.access (a := ⟨b, offset, n⟩) rfl

/-- A `memcpy` of no bytes is right. -/
theorem store_adds {b offset : Nat} {bytes : List UInt8}
    (h : cache.store b offset bytes s = .ok s') : Adds (bytes.length = 0) s s' := by
  obtain ⟨d, -, h⟩ := bind_eq_ok.mp h
  obtain ⟨t, -, h⟩ := bind_eq_ok.mp h
  cases h
  exact Adds.access (a := ⟨b, offset, bytes.length⟩) rfl

end BlockCache

namespace Cast

/-- The indirect branch reads an address through a cast, so it never gets along with `data` alone.
-/
theorem inodeMapIndirect_adds {b k : Nat}
    (h : inodeMapIndirect cache inode k modified s = .ok (b, inode', modified', s')) :
    Adds False s s' := by
  obtain ⟨⟨inode₁, m₁, s₁⟩, hensure, h⟩ := bind_eq_ok.mp h
  obtain ⟨s₂, hacq, h⟩ := bind_eq_ok.mp h
  obtain ⟨s₃, hrel, h⟩ := bind_eq_ok.mp h
  obtain ⟨⟨v, s₄⟩, hload, h⟩ := bind_eq_ok.mp h
  rw [ensureIndirect_logged] at hensure
  obtain ⟨r, -, hr⟩ := map_eq_ok hensure
  have hlog : s₃.2 = s.2 := by
    rw [snd_of_map hrel, snd_of_map hacq]
    cases hr
    rfl
  have hadds := Adds.of_eq_trans hlog (BlockCache.loadU32_adds hload)
  dsimp only at h
  split at h
  · cases h
    exact hadds
  · obtain ⟨⟨b', s₅⟩, halloc, h⟩ := bind_eq_ok.mp h
    obtain ⟨s₆, hstore, h⟩ := bind_eq_ok.mp h
    cases h
    obtain ⟨r', -, hr'⟩ := map_eq_ok halloc
    cases hr'
    unfold BlockCache.storeU32 at hstore
    have hstored := Adds.of_eq_trans (s := s₄) (t := (r'.2, s₄.2)) rfl
      (BlockCache.store_adds hstore)
    exact (hadds.trans hstored).congr (iff_of_eq (false_and _))

/-- `inode_map` is right on direct blocks, where it makes no access through the cast of the indirect
block. -/
theorem inodeMap_adds {b offset : Nat}
    (h : inodeMap cache inode offset modified s = .ok (b, inode', modified', s')) :
    Adds (offset / blockSize < inodeNumDirect) s s' := by
  obtain ⟨_, -, h⟩ := bind_eq_ok.mp h
  dsimp only at h
  split at h
  · next hk =>
    rw [inodeMapDirect_logged] at h
    obtain ⟨r, -, hr⟩ := map_eq_ok h
    cases hr
    exact (Adds.of_eq rfl).congr (iff_of_true trivial hk)
  · next hk => exact (inodeMapIndirect_adds h).congr (iff_of_false id hk)

/-- `inode_map2` is right on direct blocks, where it makes no access through the cast of the
indirect block. -/
theorem inodeMap2_adds {b offset : Nat} (h : inodeMap2 cache inode offset s = .ok (b, s')) :
    Adds (offset / blockSize < inodeNumDirect) s s' := by
  obtain ⟨_, -, h⟩ := bind_eq_ok.mp h
  dsimp only at h
  split at h
  · next hk =>
    obtain ⟨_, -, h⟩ := bind_eq_ok.mp h
    cases h
    exact (Adds.of_eq rfl).congr (iff_of_true trivial hk)
  · next hk =>
    obtain ⟨_, -, h⟩ := bind_eq_ok.mp h
    obtain ⟨s₁, hacq, h⟩ := bind_eq_ok.mp h
    obtain ⟨⟨v, s₂⟩, hload, h⟩ := bind_eq_ok.mp h
    obtain ⟨s₃, hrel, h⟩ := bind_eq_ok.mp h
    cases h
    have hadds := Adds.of_eq_trans (snd_of_map hacq) (BlockCache.loadU32_adds hload)
    exact (hadds.trans_of_eq (snd_of_map hrel)).congr (iff_of_false id hk)

/-- Turn `k` of the loop of `inode_read` is right if it copies nothing from a direct block. By
induction on the turns to go. -/
theorem inodeReadFrom_adds {offset end' n i : Nat} {bytes : List UInt8}
    (h : inodeReadFrom cache inode offset end' n i s = .ok (bytes, s')) :
    Adds (∀ k < n, (i + k * blockSize) / blockSize < inodeNumDirect ∧
      min (i + k * blockSize + blockSize) end' ≤ max (i + k * blockSize) offset) s s' := by
  induction n generalizing i s bytes with
  | zero =>
    cases h
    exact (Adds.of_eq rfl).congr (iff_of_true trivial fun k hk => absurd hk (Nat.not_lt_zero k))
  | succ n ih =>
    obtain ⟨⟨b, s₁⟩, hmap, h⟩ := bind_eq_ok.mp h
    obtain ⟨s₂, hacq, h⟩ := bind_eq_ok.mp h
    obtain ⟨⟨chunk, s₃⟩, hload, h⟩ := bind_eq_ok.mp h
    obtain ⟨s₄, hrel, h⟩ := bind_eq_ok.mp h
    obtain ⟨⟨rest, s₅⟩, hrest, h⟩ := bind_eq_ok.mp h
    cases h
    have hturn := (inodeMap2_adds hmap).trans
      ((Adds.of_eq_trans (snd_of_map hacq) (BlockCache.load_adds hload)).trans_of_eq
        (snd_of_map hrel))
    refine (hturn.trans (ih hrest)).congr ?_
    have hnext : ∀ k, i + blockSize + k * blockSize = i + (k + 1) * blockSize := by
      intro k
      rw [Nat.succ_mul, Nat.add_assoc, Nat.add_comm blockSize]
    rw [Nat.forall_lt_succ_left, Nat.zero_mul, Nat.add_zero]
    simp only [hnext]
    refine and_congr_left fun _ => and_congr_right fun _ => ?_
    omega

/-- One turn of the loop of `inode_write`. -/
theorem inodeWriteFrom_turn {offset end' n i : Nat} {src : List UInt8}
    (h : inodeWriteFrom cache offset end' (n + 1) i src inode modified s =
      .ok (inode', modified', s')) :
    ∃ t inode₁ m₁, Adds (i / blockSize < inodeNumDirect ∧
      (src.take (min (i + blockSize) end' - i - (max i offset - i))).length = 0) s t ∧
      inodeWriteFrom cache offset end' n (i + blockSize)
        (src.drop (min (i + blockSize) end' - i - (max i offset - i))) inode₁ m₁ t =
          .ok (inode', modified', s') := by
  obtain ⟨⟨b, inode₁, m₁, s₁⟩, hmap, h⟩ := bind_eq_ok.mp h
  obtain ⟨s₂, hacq, h⟩ := bind_eq_ok.mp h
  obtain ⟨s₃, hstore, h⟩ := bind_eq_ok.mp h
  obtain ⟨s₄, hrel, h⟩ := bind_eq_ok.mp h
  refine ⟨s₄, inode₁, m₁, ?_, h⟩
  exact (inodeMap_adds hmap).trans
    ((Adds.of_eq_trans (snd_of_map hacq) (BlockCache.store_adds hstore)).trans_of_eq
      (snd_of_map hrel))

/-- What the first turn of the loop of `inode_write` has to be, whatever comes after. -/
theorem inodeWriteFrom_adds {offset end' n i : Nat} {src : List UInt8}
    (h : inodeWriteFrom cache offset end' (n + 1) i src inode modified s =
      .ok (inode', modified', s')) :
    ∃ P, Adds ((i / blockSize < inodeNumDirect ∧
      (src.take (min (i + blockSize) end' - i - (max i offset - i))).length = 0) ∧ P) s s' ∧
      (n = 0 → P) := by
  induction n generalizing i src inode modified s with
  | zero =>
    obtain ⟨t, inode₁, m₁, hturn, h⟩ := inodeWriteFrom_turn h
    cases h
    exact ⟨True, hturn.trans (Adds.of_eq rfl), fun _ => trivial⟩
  | succ n ih =>
    obtain ⟨t, inode₁, m₁, hturn, h⟩ := inodeWriteFrom_turn h
    obtain ⟨P, hrest, -⟩ := ih h
    exact ⟨_, hturn.trans hrest, (nomatch ·)⟩

/-- What `inode_read` adds to the log: accesses to `data` only, if and only if no byte is copied and
the loop needs no indirect block. -/
theorem inodeRead_adds {offset count : Nat} {bytes : List UInt8} (hcount : count < 2 ^ 64)
    (h : inodeRead cache inode offset count s = .ok (bytes, s')) :
    Adds (count = 0 ∧ (offset % blockSize = 0 ∨ offset / blockSize < inodeNumDirect)) s s' := by
  obtain ⟨_, hoff, h⟩ := bind_eq_ok.mp h
  obtain ⟨_, _, h⟩ := bind_eq_ok.mp h
  obtain ⟨_, hle, h⟩ := bind_eq_ok.mp h
  rw [kassert_eq_ok] at hoff hle
  have hend : (offset + count) % 2 ^ 64 = offset + count := by
    have := inode.entry.numBytes.toNat_lt
    omega
  rw [hend] at h
  refine (inodeReadFrom_adds h).congr ?_
  unfold roundDown blockSize
  constructor
  · intro hall
    -- unless `offset` is the start of a block and `count` is 0, there is a first turn
    by_cases hturn : count = 0 ∧ offset % 512 = 0
    · exact ⟨hturn.1, .inl hturn.2⟩
    · have hfirst := hall 0 (by omega)
      omega
  · intro hzero k hk
    omega

theorem inodeSync_snd {sb : SuperBlock} {doWrite : Bool}
    (h : inodeSync sb cache.logged inode doWrite s = .ok (inode', s')) : s'.2 = s.2 := by
  rw [inodeSync_logged] at h
  obtain ⟨r, -, hr⟩ := map_eq_ok h
  cases hr
  rfl

/-- What `inode_write` adds to the log. Its loop makes a turn even for an empty `src`, so the block
of `offset` has to be a direct one. -/
theorem inodeWrite_adds {sb : SuperBlock} {src : List UInt8} {offset : Nat}
    (hsrc : src.length < 2 ^ 64)
    (h : inodeWrite sb cache inode src offset s = .ok (inode', s')) :
    Adds (src = [] ∧ offset / blockSize < inodeNumDirect) s s' := by
  obtain ⟨_, hoff, h⟩ := bind_eq_ok.mp h
  obtain ⟨_, -, h⟩ := bind_eq_ok.mp h
  obtain ⟨_, hle, h⟩ := bind_eq_ok.mp h
  rw [kassert_eq_ok] at hoff hle
  have hend : (offset + src.length) % 2 ^ 64 = offset + src.length := by
    have := inode.entry.numBytes.toNat_lt
    omega
  simp only [hend] at h
  obtain ⟨⟨inode₁, modify, s₁⟩, hloop, h⟩ := bind_eq_ok.mp h
  have hsync : s'.2 = s₁.2 := by
    dsimp only at h
    split at h
    · exact inodeSync_snd h
    · cases h
      rfl
  obtain ⟨P, hadds, hP⟩ := inodeWriteFrom_adds hloop
  refine (hadds.trans_of_eq hsync).congr ?_
  rw [List.length_take, ← List.length_eq_zero_iff]
  unfold roundDown blockSize at *
  constructor
  · intro hfirst
    omega
  · intro hzero
    exact ⟨by omega, hP (by omega)⟩

/-- The first loop of `inode_clear` adds nothing to the log and leaves the indirect block for the
second one. -/
theorem clearDirect_foldlM {l : List (Fin inodeNumDirect)}
    (h : l.foldlM (clearDirect cache.logged) (inode, s) = .ok (inode', s')) :
    s'.2 = s.2 ∧ inode'.entry.indirect = inode.entry.indirect ∧ inode'.valid = inode.valid := by
  induction l generalizing inode s with
  | nil =>
    cases h
    exact ⟨rfl, rfl, rfl⟩
  | cons i l ih =>
    rw [List.foldlM_cons] at h
    obtain ⟨⟨inode₁, s₁⟩, hturn, h⟩ := bind_eq_ok.mp h
    obtain ⟨hlog, hind, hvalid⟩ := ih h
    unfold clearDirect at hturn
    dsimp only at hturn
    split at hturn
    · split at hturn
      · obtain ⟨s₂, hfree, hturn⟩ := bind_eq_ok.mp hturn
        cases hturn
        exact ⟨hlog.trans (snd_of_map hfree), hind, hvalid⟩
      · cases hturn
        exact ⟨hlog, hind, hvalid⟩
    · cases hturn
      exact ⟨hlog, hind, hvalid⟩

theorem clearIndirect_foldlM {l : List Nat} {b : Nat}
    (h : l.foldlM (clearIndirect cache b) s = .ok s') : Adds (l = []) s s' := by
  induction l generalizing s with
  | nil =>
    cases h
    exact (Adds.of_eq rfl).congr (iff_of_true trivial rfl)
  | cons i l ih =>
    rw [List.foldlM_cons] at h
    obtain ⟨s₁, hturn, h⟩ := bind_eq_ok.mp h
    obtain ⟨⟨v, s₂⟩, hload, hturn⟩ := bind_eq_ok.mp hturn
    have hfree : s₁.2 = s₂.2 := by
      dsimp only at hturn
      split at hturn
      · exact snd_of_map hturn
      · cases hturn
        rfl
    have hadds := (BlockCache.loadU32_adds hload).trans_of_eq hfree
    exact (hadds.trans (ih h)).congr (iff_of_false (fun h => h.1) (List.cons_ne_nil _ _))

/-- What `inode_clear` adds to the log: the elements of the indirect block, unless there is none or
the inode is not valid. -/
theorem inodeClear_adds {sb : SuperBlock}
    (h : inodeClear sb cache inode s = .ok (inode', s')) :
    Adds (inode.entry.indirect = 0 ∨ inode.valid = false) s s' := by
  obtain ⟨⟨inode₁, s₁⟩, hdirect, h⟩ := bind_eq_ok.mp h
  obtain ⟨s₂, hindirect, h⟩ := bind_eq_ok.mp h
  obtain ⟨hlog, hind, hvalid⟩ := clearDirect_foldlM hdirect
  refine Adds.of_eq_trans hlog (Adds.trans_of_eq ?_ (inodeSync_snd h))
  rw [← hind, ← hvalid]
  unfold freeIndirect at hindirect
  dsimp only at hindirect
  split at hindirect
  · next hboth =>
    obtain ⟨s₃, hacq, hindirect⟩ := bind_eq_ok.mp hindirect
    obtain ⟨s₄, hloop, hindirect⟩ := bind_eq_ok.mp hindirect
    obtain ⟨s₅, hrel, hindirect⟩ := bind_eq_ok.mp hindirect
    have hadds := Adds.of_eq_trans (snd_of_map hacq) (clearIndirect_foldlM hloop)
    refine ((hadds.trans_of_eq (snd_of_map hrel)).trans_of_eq (snd_of_map hindirect)).congr ?_
    apply iff_of_false
    · rw [List.range_eq_nil]
      decide
    · simp [hboth]
  · next hboth =>
    cases hindirect
    refine (Adds.of_eq rfl).congr (iff_of_true trivial ?_)
    rw [not_and_or, not_not, Bool.not_eq_true] at hboth
    exact hboth

end Cast

end Log

/-! ## Which calls keep to `data` -/

/-- A call of a function that uses a cast, with its arguments. The functions on directories call
these. -/
inductive CastCall where
  | map (offset : Nat) (modified : Bool)
  | map2 (offset : Nat)
  | read (offset count : Nat)
  | write (src : List UInt8) (offset : Nat)
  | clear

namespace CastCall

variable {cache : BlockCache σ} {sb : SuperBlock} {inode : Inode} {call : CastCall}

/-- The call on `inode`, as `Fs.Inode` has it. What it returns is dropped; the state of the cache is
what counts here. -/
def run (sb : SuperBlock) (cache : BlockCache σ) (inode : Inode) :
    CastCall → σ → Except Stop σ
  | map offset modified, s => (inodeMap cache inode offset modified s).map fun r => r.2.2.2
  | map2 offset, s => (inodeMap2 cache inode offset s).map fun r => r.2
  | read offset count, s => (inodeRead cache inode offset count s).map fun r => r.2
  | write src offset, s => (inodeWrite sb cache inode src offset s).map fun r => r.2
  | clear, s => (inodeClear sb cache inode s).map fun r => r.2

/-- The call on `inode`, with a log. By the `map_` lemmas it does the same to the cache as `run`. -/
def runLogged (sb : SuperBlock) (cache : BlockCache σ) (inode : Inode) :
    CastCall → σ × List Access → Except Stop (σ × List Access)
  | map offset modified, s => (Cast.inodeMap cache inode offset modified s).map fun r => r.2.2.2
  | map2 offset, s => (Cast.inodeMap2 cache inode offset s).map fun r => r.2
  | read offset count, s => (Cast.inodeRead cache inode offset count s).map fun r => r.2
  | write src offset, s => (Cast.inodeWrite sb cache inode src offset s).map fun r => r.2
  | clear, s => (Cast.inodeClear sb cache inode s).map fun r => r.2

/-- A `count` is a `usize`, so it is less than `2 ^ 64`. The offsets are checked by the functions
themselves. -/
def Fits : CastCall → Prop
  | read _ count => count < 2 ^ 64
  | write src _ => src.length < 2 ^ 64
  | _ => True

/-- The call copies no byte and gets along without the indirect block. These are the calls that
never look at the content of a block. -/
def NoContent (inode : Inode) : CastCall → Prop
  | map offset _ => offset / blockSize < inodeNumDirect
  | map2 offset => offset / blockSize < inodeNumDirect
  | read offset count =>
    count = 0 ∧ (offset % blockSize = 0 ∨ offset / blockSize < inodeNumDirect)
  | write src offset => src = [] ∧ offset / blockSize < inodeNumDirect
  | clear => inode.entry.indirect = 0 ∨ inode.valid = false

theorem map_runLogged (call : CastCall) (s : σ × List Access) :
    (call.runLogged sb cache inode s).map Prod.fst = call.run sb cache inode s.1 := by
  cases call with
  | map offset modified =>
    rw [run, ← Cast.map_inodeMap, runLogged]
    cases Cast.inodeMap cache inode offset modified s <;> rfl
  | map2 offset =>
    rw [run, ← Cast.map_inodeMap2, runLogged]
    cases Cast.inodeMap2 cache inode offset s <;> rfl
  | read offset count =>
    rw [run, ← Cast.map_inodeRead, runLogged]
    cases Cast.inodeRead cache inode offset count s <;> rfl
  | write src offset =>
    rw [run, ← Cast.map_inodeWrite, runLogged]
    cases Cast.inodeWrite sb cache inode src offset s <;> rfl
  | clear =>
    rw [run, ← Cast.map_inodeClear, runLogged]
    cases Cast.inodeClear sb cache inode s <;> rfl

theorem runLogged_adds {s s' : σ × List Access} (hfits : call.Fits)
    (h : call.runLogged sb cache inode s = .ok s') : Adds (call.NoContent inode) s s' := by
  cases call with
  | map offset modified =>
    obtain ⟨⟨b, inode', modified', t⟩, hcall, rfl⟩ := map_eq_ok h
    exact Cast.inodeMap_adds hcall
  | map2 offset =>
    obtain ⟨⟨b, t⟩, hcall, rfl⟩ := map_eq_ok h
    exact Cast.inodeMap2_adds hcall
  | read offset count =>
    obtain ⟨⟨bytes, t⟩, hcall, rfl⟩ := map_eq_ok h
    exact Cast.inodeRead_adds hfits hcall
  | write src offset =>
    obtain ⟨⟨inode', t⟩, hcall, rfl⟩ := map_eq_ok h
    exact Cast.inodeWrite_adds hfits hcall
  | clear =>
    obtain ⟨⟨inode', t⟩, hcall, rfl⟩ := map_eq_ok h
    exact Cast.inodeClear_adds hcall

end CastCall

/-- A call that returns has read and written only bytes of `data`, each at its place, if and only
if it had nothing to read or write there. -/
theorem inode_onlyData_iff {sb : SuperBlock} {cache : BlockCache σ} {inode : Inode}
    {call : CastCall} {s s' : σ} (hfits : call.Fits) (h : call.run sb cache inode s = .ok s') :
    ∃ log, call.runLogged sb cache inode (s, []) = .ok (s', log) ∧
      (OnlyData log ↔ call.NoContent inode) := by
  rw [show s = ((s, []) : σ × List Access).1 from rfl, ← CastCall.map_runLogged] at h
  obtain ⟨⟨t, log⟩, hrun, rfl⟩ := map_eq_ok h
  exact ⟨log, hrun, (CastCall.runLogged_adds hfits hrun).onlyData_iff⟩

/-- Blocks that stay in memory, byte by byte. `acquire` and `release` set `acquired`. -/
def structCache : BlockCache (Nat → Nat → UInt8) where
  acquire b s := .ok (Function.update s b (Function.update (s b) 24 1))
  release b s := .ok (Function.update s b (Function.update (s b) 24 0))
  sync _ s := .ok s
  alloc _ := .error .wait
  free _ s := .ok s
  data b s := .ok fun k => s b (65 + k)
  setData b d s := .ok (Function.update s b fun i =>
    if 65 ≤ i ∧ i < 65 + blockSize then d.byte (i - 65) else s b i)
  bytes b s := .ok fun k => s b (castOffset + k)
  setBytes b d s := .ok (Function.update s b fun i =>
    if castOffset ≤ i ∧ i < castOffset + blockSize then d.byte (i - castOffset) else s b i)

/-- `block_no` of block `b` is `b`, the rest is 0. -/
def structs : Nat → Nat → UInt8 := fun b i => if i < 8 then leByte b i else 0

/-- A file of one byte in block 9. -/
def structInode : Inode := ⟨2, true, { InodeEntry.zero with
  type := 2, numLinks := 1, numBytes := 1, addrs := Function.update (fun _ => 0) 0 9 }⟩

/-- Its file system. -/
def structSuperBlock : SuperBlock := ⟨20, 8, 12, 2, 14, 15⟩

/-- The write of a byte to a direct block, as the theorem sees it. -/
theorem inode_onlyData_iff_write : ∃ s',
    (CastCall.write [7] 0).Fits ∧
      (CastCall.write [7] 0).run structSuperBlock structCache structInode structs = .ok s' ∧
      ∃ log, (CastCall.write [7] 0).runLogged structSuperBlock structCache structInode
          (structs, []) = .ok (s', log) ∧
        (OnlyData log ↔ (CastCall.write [7] 0).NoContent structInode) := by
  have hfits : (CastCall.write [7] 0).Fits := by
    unfold CastCall.Fits
    decide
  obtain ⟨s', h⟩ := exists_ok (x := (CastCall.write [7] 0).run structSuperBlock structCache
    structInode structs) (by decide +kernel)
  exact ⟨s', hfits, h, inode_onlyData_iff hfits h⟩

/-- The byte goes to `block_no` of the block, which is 9 before and 7 afterwards. -/
theorem inode_write_overwrites_block_no : ∃ s' log,
    (CastCall.write [7] 0).runLogged structSuperBlock structCache structInode (structs, []) =
        .ok (s', log) ∧
      BlockField.fieldAt 0 = some (.blockNo, 0) ∧ structs 9 0 = 9 ∧ s' 9 0 = 7 ∧
      ¬ OnlyData log := by
  obtain ⟨⟨s', log⟩, h⟩ := exists_ok (x := (CastCall.write [7] 0).runLogged structSuperBlock
    structCache structInode (structs, [])) (by decide +kernel)
  have hbyte : ((CastCall.write [7] 0).runLogged structSuperBlock structCache structInode
      (structs, [])).toOption.map (fun r => (r.1 9 0, r.2)) = some (7, [⟨9, 0, 1⟩]) := by
    decide +kernel
  rw [h] at hbyte
  simp only [Except.toOption, Option.map_some, Option.some.injEq, Prod.mk.injEq] at hbyte
  refine ⟨s', log, h, by decide, by decide, hbyte.1, ?_⟩
  rw [hbyte.2]
  intro hdata
  have hcount := Access.onlyData_iff.mp (hdata _ (List.mem_singleton_self _))
  cases hcount

end KernelAarch64.Fs
