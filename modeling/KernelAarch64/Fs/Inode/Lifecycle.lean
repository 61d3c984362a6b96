import KernelAarch64.Fs.Inode.Structs

/-!
# The life of an inode

The list of the inodes in memory with their reference counts, and the file system behind it.
`inode_get` puts an inode into the list or counts one more reference, `inode_put` counts down and
takes the inode out of the list with its last reference, and then destroys it if it has no links.
The calls come one after the other; threads are in `Races`.

The file system is in order when the blocks of the inodes are in use and belong to one inode each
(`FsOk`). The list is in order when it has one inode for each number that is referenced, counted
right and stored as it is in memory (`LifeOk`).

`LifeOk` is the invariant of a run of calls: the file system is in order (`FsOk`), the list has one
object for each referenced number, and the counts are right. There is a lemma for each call,
`LifeOk.alloc`, `LifeOk.get`, `LifeOk.links`, `LifeOk.put`, and `LifeOk.run` is the induction. All
of this is over block contents; the last section carries it over to structs for the runs that do not
go through an indirect block (`inode_lifecycle`), and shows what the others do (`inodeClear_ne_ok`,
`unlinked_file_is_not_freed`).
-/

namespace KernelAarch64.Fs

open KernelAarch64.Lib

/-! ## The list of inodes -/

/-- An `Inode` of the list, with `rc.count`, which says how many references to it are held. -/
structure InodeRecord where
  inode : Inode
  count : Int

/-- The inodes in memory. An object of the arena gets a number of its own each time it is
allocated. -/
structure InodeList where
  /-- From `head.next` on. -/
  list : List Nat
  objects : Nat → InodeRecord
  /-- The number of the next object of the arena. -/
  next : Nat

namespace InodeList

/-- No inode is in memory. -/
def empty : InodeList := ⟨[], fun _ => ⟨⟨0, false, .zero⟩, 0⟩, 0⟩

/-- The inode number of an object. -/
def inodeNo (m : InodeList) (o : Nat) : Nat := (m.objects o).inode.inodeNo

/-- `get_inode_inlist` -/
def getInodeInlist (m : InodeList) (n : Nat) : Option Nat := m.list.find? fun o => m.inodeNo o = n

/-- An assignment to the fields of an object. -/
def setObject (m : InodeList) (o : Nat) (x : InodeRecord) : InodeList :=
  { m with objects := Function.update m.objects o x }

/-- `increment_rc(&inode->rc)`, which is all that `inode_share` does. -/
def share (m : InodeList) (o : Nat) : InodeList :=
  m.setObject o { m.objects o with count := (m.objects o).count + 1 }

theorem objects_setObject_of_ne {m : InodeList} {o p : Nat} (hp : p ≠ o) (x : InodeRecord) :
    (m.setObject o x).objects p = m.objects p := Function.update_of_ne hp ..

/-- The object has its new fields. -/
@[simp] theorem objects_setObject_self (m : InodeList) (o : Nat) (x : InodeRecord) :
    (m.setObject o x).objects o = x := Function.update_self ..

/-- An assignment that leaves the inode number. -/
theorem inodeNo_setObject {m : InodeList} {o : Nat} {x : InodeRecord}
    (hx : x.inode.inodeNo = m.inodeNo o) : (m.setObject o x).inodeNo = m.inodeNo := by
  funext p
  unfold inodeNo
  by_cases hp : p = o
  · subst hp
    rw [objects_setObject_self]
    exact hx
  · rw [objects_setObject_of_ne hp]

/-- A new inode with one reference in front of the list. -/
def add (m : InodeList) (inode : Inode) : InodeList :=
  { m.setObject m.next ⟨inode, 1⟩ with list := m.next :: m.list, next := m.next + 1 }

end InodeList

variable {σ : Type}

/-- `inode_get`. `object` is what `alloc_object` returns: `none` for `NULL`, else an object with an
old entry in its memory. -/
def inodeGet (sb : SuperBlock) (cache : BlockCache σ) (n : Nat) (object : Option InodeEntry)
    (m : InodeList) (s : σ) : Except Stop (Nat × InodeList × σ) := do
  kassert (n > 0) "inode_no > 0"
  kassert (n < sb.numInodes.toNat) "inode_no < sblock->num_inodes"
  match m.getInodeInlist n, object with
  | some o, _ => return (o, m.share o, s)
  | none, none => .error (.panic "inode_get : arena fails to allocate new inode.\n")
  | none, some junk =>
    let (inode, s) ← inodeLoad sb cache n junk s
    return (m.next, m.add inode, s)

/-- `inode_put`. The count goes down; with the last reference the inode leaves the list, and an
inode without links is destroyed before that. -/
def inodePut (sb : SuperBlock) (cache : BlockCache σ) (o : Nat) (m : InodeList) (s : σ) :
    Except Stop (InodeList × σ) := do
  let x := m.objects o
  if x.count - 1 ≠ 0 then return (m.setObject o { x with count := x.count - 1 }, s)
  else
    let (inode, s) ← inodePutLast sb cache x.inode s
    return ({ m.setObject o ⟨inode, x.count - 1⟩ with list := m.list.erase o }, s)

/-- `inode_put` of this inode goes through its indirect block: it is the last reference to an inode
without links. -/
def InodeRecord.PutsIndirect (x : InodeRecord) : Prop :=
  x.count = 1 ∧ (x.inode.entry.numLinks = 0 ∧ x.inode.inodeNo ≠ 1) ∧ x.inode.entry.indirect ≠ 0

/-- A caller changes the link count and calls `inode_sync`, as the system calls that link and unlink
files do. -/
def changeLinks (sb : SuperBlock) (cache : BlockCache σ) (o : Nat) (numLinks : UInt16)
    (m : InodeList) (s : σ) : Except Stop (InodeList × σ) := do
  let x := m.objects o
  let (inode, s) ← inodeSync sb cache
    { x.inode with entry := { x.inode.entry with numLinks := numLinks } } true s
  return (m.setObject o { x with inode := inode }, s)

/-- The states that calls of the inode layer lead to, one after the other, with the references that
callers hold: `inode_get` and `inode_share` return one, and `inode_put` takes one back, not from an
inode whose indirect block has to go. -/
inductive LifeRun (sb : SuperBlock) (cache : BlockCache σ) (s₀ : σ) :
    InodeList → σ → List Nat → Prop
  | start : LifeRun sb cache s₀ .empty s₀ []
  | alloc {m s t refs type n} (run : LifeRun sb cache s₀ m s refs)
      (call : inodeAlloc sb cache type s = .ok (n, t)) : LifeRun sb cache s₀ m t refs
  | get {m m' s t refs n object o} (run : LifeRun sb cache s₀ m s refs)
      (call : inodeGet sb cache n object m s = .ok (o, m', t)) : LifeRun sb cache s₀ m' t (o :: refs)
  | share {m s refs o} (run : LifeRun sb cache s₀ m s refs) (held : o ∈ refs) :
      LifeRun sb cache s₀ (m.share o) s (o :: refs)
  | put {m m' s t refs o} (run : LifeRun sb cache s₀ m s refs) (held : o ∈ refs)
      (direct : ¬ (m.objects o).PutsIndirect)
      (call : inodePut sb cache o m s = .ok (m', t)) : LifeRun sb cache s₀ m' t (refs.erase o)
  | links {m m' s t refs o numLinks} (run : LifeRun sb cache s₀ m s refs) (held : o ∈ refs)
      (call : changeLinks sb cache o numLinks m s = .ok (m', t)) : LifeRun sb cache s₀ m' t refs

/-! ## The file system

`Owners` of `Lib.Slots` is about all inodes at once: the blocks that are in use belong to one inode
each or to none. -/

/-- The blocks that store inodes. -/
def inodeBlocks (sb : SuperBlock) : Finset Nat :=
  (Finset.range sb.numInodes.toNat).image (toBlockNo sb)

/-- The block that stores an inode is one of these. -/
theorem toBlockNo_mem {sb : SuperBlock} {n : Nat} (hn : n < sb.numInodes.toNat) :
    toBlockNo sb n ∈ inodeBlocks sb :=
  Finset.mem_image_of_mem _ (Finset.mem_range.mpr hn)

namespace BlockCache.Ideal

variable {cache : BlockCache σ} {c : cache.Ideal} {sb : SuperBlock} {s t : σ} {m n : Nat}
  {inode : Inode} {e : InodeEntry}

/-- The inode is allocated. -/
def Allocated (c : cache.Ideal) (sb : SuperBlock) (s : σ) (n : Nat) : Prop :=
  (0 < n ∧ n < sb.numInodes.toNat) ∧ (c.entryOf sb s n).type ≠ inodeInvalid

instance (c : cache.Ideal) (sb : SuperBlock) (s : σ) (n : Nat) : Decidable (c.Allocated sb s n) :=
  inferInstanceAs (Decidable (_ ∧ _))

/-- The block in slot `k` of inode `n`, or `0`. -/
def blockOf (c : cache.Ideal) (sb : SuperBlock) (s : σ) (n k : Nat) : Nat :=
  if c.Allocated sb s n then (c.entryOf sb s n).slot (c.mem s) k else 0

/-- The blocks of the inodes are in use and belong to one inode each. -/
def FsOk (c : cache.Ideal) (sb : SuperBlock) (s : σ) : Prop :=
  Owners numSlots (c.blockOf sb s) (inodeBlocks sb) (c.used s)

/-- Whether an inode is allocated is in its entry. -/
theorem Allocated.congr (h : c.entryOf sb t n = c.entryOf sb s n) :
    c.Allocated sb t n ↔ c.Allocated sb s n := by
  unfold Allocated
  rw [h]

/-- The order of the file system is about the content and the use of blocks. -/
theorem FsOk.of_eq (h : c.FsOk sb s) (hmem : c.mem t = c.mem s) (hused : c.used t = c.used s) :
    c.FsOk sb t := by
  have hentry : ∀ n, c.entryOf sb t n = c.entryOf sb s n := fun n => entryOf_congr (by rw [hmem])
  have hblock : ∀ n k, c.blockOf sb t n k = c.blockOf sb s n k := by
    intro n k
    simp only [blockOf, Allocated.congr (hentry n), hentry, hmem]
  unfold FsOk
  rw [hused]
  exact h.congr fun n k _ => hblock n k

/-- The blocks of an inode that is allocated. -/
theorem blockOf_allocated (hn : c.Allocated sb s n) (k : Nat) :
    c.blockOf sb s n k = (c.entryOf sb s n).slot (c.mem s) k := if_pos hn

/-- An inode that is not allocated has no blocks. -/
theorem blockOf_not_allocated (hn : ¬ c.Allocated sb s n) (k : Nat) : c.blockOf sb s n k = 0 :=
  if_neg hn

/-- An entry with the same blocks keeps them when the block of an inode changes: it is none of
theirs. `X` are the blocks that keep their content otherwise. -/
theorem FsOk.blockOf_eq (h : c.FsOk sb s) (hn : n < sb.numInodes.toNat) {X : Finset Nat}
    {d : BlockData} (hmem : ∀ x ∈ X, c.mem t x = Function.update (c.mem s) (toBlockNo sb n) d x)
    (halloc : c.Allocated sb t m ↔ c.Allocated sb s m)
    (haddrs : (c.entryOf sb t m).addrs = (c.entryOf sb s m).addrs)
    (hind : (c.entryOf sb t m).indirect = (c.entryOf sb s m).indirect)
    (hX : ∀ k < numSlots, c.blockOf sb s m k ≠ 0 → c.blockOf sb s m k ∈ X) (k : Nat) :
    c.blockOf sb t m k = c.blockOf sb s m k := by
  by_cases hm : c.Allocated sb s m
  swap
  · rw [blockOf_not_allocated (halloc.not.mpr hm), blockOf_not_allocated hm]
  rw [blockOf_allocated (halloc.mpr hm), blockOf_allocated hm]
  have hslot : (c.entryOf sb t m).slot (c.mem t) k = (c.entryOf sb s m).slot (c.mem t) k := by
    unfold InodeEntry.slot InodeEntry.addr
    rw [haddrs, hind]
  rw [hslot]
  refine InodeEntry.slot_congr ?_ k
  intro hne
  have hlast : c.blockOf sb s m inodeMaxBlocks = (c.entryOf sb s m).indirect.toNat := by
    rw [blockOf_allocated hm, InodeEntry.slot_last]
  have hblock : c.blockOf sb s m inodeMaxBlocks ≠ 0 := by
    rw [hlast]
    exact toNat_eq_zero.not.mpr hne
  have hother : (c.entryOf sb s m).indirect.toNat ≠ toBlockNo sb n := by
    intro heq
    apply h.apart m inodeMaxBlocks (Nat.lt_succ_self _) hblock
    rw [hlast, heq]
    exact toBlockNo_mem hn
  rw [← hlast] at hother ⊢
  rw [hmem _ (hX _ (Nat.lt_succ_self _) hblock), Function.update_of_ne hother]

/-- An inode in memory that is stored with the blocks it has. Its links and its size may differ from
what the disk has. -/
structure Backed (c : cache.Ideal) (sb : SuperBlock) (s : σ) (inode : Inode) : Prop where
  valid : inode.valid = true
  allocated : c.Allocated sb s inode.inodeNo
  type : inode.entry.type ≠ inodeInvalid
  addrs : inode.entry.addrs = (c.entryOf sb s inode.inodeNo).addrs
  indirect : inode.entry.indirect = (c.entryOf sb s inode.inodeNo).indirect

/-- The blocks of the other inodes are the blocks of others. -/
theorem Backed.loaded (hb : c.Backed sb s inode) (h : c.FsOk sb s) :
    c.Loaded sb (others numSlots (c.blockOf sb s inode.inodeNo) (c.used s)) inode s := by
  refine ⟨?_, hb.valid, hb.allocated.1, ?_, hb.type, hb.allocated.2⟩
  · refine (h.slots inode.inodeNo).congr fun k _ => ?_
    rw [blockOf_allocated hb.allocated]
    unfold InodeEntry.slot InodeEntry.addr
    rw [hb.addrs, hb.indirect]
  · exact h.shared_others inode.inodeNo (toBlockNo_mem hb.allocated.1.2)

/-- Storing the entry of an inode leaves the blocks with their owners, as the entry has the
addresses that the disk has. -/
theorem FsOk.inodeSync (h : c.FsOk sb s) (hb : c.Backed sb s inode) :
    ∃ t, inodeSync sb cache inode true s = .ok (inode, t) ∧ c.FsOk sb t ∧
      ∀ m, c.entryOf sb t m = if m = inode.inodeNo then inode.entry else c.entryOf sb s m := by
  obtain ⟨t, hsync, -, -, hused, hmem⟩ := (hb.loaded h).inodeSync
  have hentry : ∀ m, c.entryOf sb t m =
      if m = inode.inodeNo then inode.entry else c.entryOf sb s m := fun m =>
    entryOf_putEntry (congrFun hmem _)
  refine ⟨t, hsync, ?_, hentry⟩
  unfold FsOk
  rw [hused]
  refine h.congr fun m k _ => ?_
  refine h.blockOf_eq hb.allocated.1.2 (fun x _ => congrFun hmem x) ?_ ?_ ?_ (fun k hk hne =>
    h.mem m k hk hne) k
  · by_cases hm : m = inode.inodeNo
    · subst hm
      refine iff_of_true ⟨hb.allocated.1, ?_⟩ hb.allocated
      rw [hentry, if_pos rfl]
      exact hb.type
    · exact Allocated.congr (by rw [hentry, if_neg hm])
  · rw [hentry]
    split
    · next hm => rw [hm, hb.addrs]
    · rfl
  · rw [hentry]
    split
    · next hm => rw [hm, hb.indirect]
    · rfl

/-- The later of two stores of an entry counts. -/
theorem putEntry_putEntry (d : BlockData) (n : Nat) (e e' : InodeEntry) :
    putEntry (putEntry d n e) n e' = putEntry d n e' := by
  funext k
  unfold putEntry
  split <;> rfl

/-- The last `inode_put` of an inode without links gives its blocks back and clears its entry. The
blocks of every other inode are where they were. -/
theorem FsOk.destroy (h : c.FsOk sb s) (hb : c.Backed sb s inode)
    (hlinks : inode.entry.numLinks = 0 ∧ inode.inodeNo ≠ 1) :
    ∃ inode' t, inodePutLast sb cache inode s = .ok (inode', t) ∧ c.FsOk sb t ∧
      c.used t = others numSlots (c.blockOf sb s inode.inodeNo) (c.used s) ∧
      ∀ m < sb.numInodes.toNat, c.entryOf sb t m =
        if m = inode.inodeNo then .zero else c.entryOf sb s m := by
  -- `base` are the blocks that remain when those of this inode are gone.
  generalize hbase : others numSlots (c.blockOf sb s inode.inodeNo) (c.used s) = base
  have hblocks : inodeBlocks sb ⊆ base := hbase ▸ h.shared_others inode.inodeNo
  obtain ⟨s₁, hclear, hloaded, hused₁, hmem₁⟩ := (hbase ▸ hb.loaded h).inodeClear
  obtain ⟨t, hsync, hmem, hused⟩ : ∃ t,
      Fs.inodeSync sb cache ⟨inode.inodeNo, inode.valid, .zero⟩ true s₁ =
        .ok (⟨inode.inodeNo, inode.valid, .zero⟩, t) ∧
      c.mem t = Function.update (c.mem s₁) (toBlockNo sb inode.inodeNo)
        (putEntry (c.mem s₁ (toBlockNo sb inode.inodeNo)) inode.inodeNo .zero) ∧
      c.used t = c.used s₁ :=
    inodeSync_write_spec hloaded.valid hloaded.inodeNo hloaded.stored
  have hn := hb.allocated.1.2
  -- Both stores go to the entry of the inode, and the second one is what stays.
  have hmemt : ∀ x ∈ base, c.mem t x = Function.update (c.mem s) (toBlockNo sb inode.inodeNo)
      (putEntry (c.mem s (toBlockNo sb inode.inodeNo)) inode.inodeNo .zero) x := by
    intro x hx
    have hown := hmem₁ _ (hblocks (toBlockNo_mem hn))
    rw [Function.update_self] at hown
    rw [hmem, hown, putEntry_putEntry]
    by_cases hxn : x = toBlockNo sb inode.inodeNo
    · rw [hxn, Function.update_self, Function.update_self]
    · rw [Function.update_of_ne hxn, Function.update_of_ne hxn, hmem₁ x hx,
        Function.update_of_ne hxn]
  have hentry : ∀ m < sb.numInodes.toNat, c.entryOf sb t m =
      if m = inode.inodeNo then .zero else c.entryOf sb s m := fun m hm =>
    entryOf_putEntry (hmemt _ (hblocks (toBlockNo_mem hm)))
  have hgone : ¬ c.Allocated sb t inode.inodeNo := by
    intro halloc
    apply halloc.2
    rw [hentry _ hn, if_pos rfl]
    rfl
  refine ⟨⟨inode.inodeNo, inode.valid, .zero⟩, t, ?_, ?_, hused.trans hused₁, hentry⟩
  · rw [inodePutLast, if_pos hlinks, hclear, ok_bind]
    exact hsync
  · unfold FsOk
    rw [hused, hused₁, ← hbase]
    apply h.drop inode.inodeNo (fun k _ => blockOf_not_allocated hgone k)
    intro m hm k _
    -- The blocks of another inode are among those that remain.
    have hX : ∀ k < numSlots, c.blockOf sb s m k ≠ 0 → c.blockOf sb s m k ∈ base := by
      intro k hk hne
      rw [← hbase]
      exact h.mem_others hm hk hne
    by_cases hrange : m < sb.numInodes.toNat
    · have hsame : c.entryOf sb t m = c.entryOf sb s m := by
        rw [hentry m hrange, if_neg hm]
      exact h.blockOf_eq hn hmemt (Allocated.congr hsame) (by rw [hsame]) (by rw [hsame]) hX k
    · rw [blockOf_not_allocated fun halloc => hrange halloc.1.2,
        blockOf_not_allocated fun halloc => hrange halloc.1.2]

/-- `inode_alloc` returns an inode that was not allocated. Its entry is empty, so no block gets a
second owner. -/
theorem FsOk.inodeAlloc (h : c.FsOk sb s) {type : UInt16}
    (hcall : inodeAlloc sb cache type s = .ok (n, t)) :
    n < sb.numInodes.toNat ∧ ¬ c.Allocated sb s n ∧ c.FsOk sb t ∧
      ∀ m ≠ n, c.entryOf sb t m = c.entryOf sb s m := by
  obtain ⟨_, -, hcall⟩ := bind_eq_ok.mp hcall
  obtain ⟨-, hn, hfree, hmem, hused⟩ := inodeAllocFrom_spec c rfl hcall
  have hentry : ∀ m, c.entryOf sb t m =
      if m = n then { InodeEntry.zero with type := type } else c.entryOf sb s m := fun m =>
    entryOf_putEntry (congrFun hmem _)
  have hnot : ¬ c.Allocated sb s n := fun halloc => halloc.2 hfree
  refine ⟨hn, hnot, ?_, fun m hm => by rw [hentry, if_neg hm]⟩
  unfold FsOk
  rw [hused]
  refine h.congr fun m k _ => ?_
  by_cases hm : m = n
  · subst hm
    rw [blockOf_not_allocated hnot]
    unfold blockOf
    split
    · rw [hentry, if_pos rfl]
      exact InodeEntry.slot_of_no_blocks (fun _ => rfl) rfl
    · rfl
  · have hsame : c.entryOf sb t m = c.entryOf sb s m := by
      rw [hentry, if_neg hm]
    exact h.blockOf_eq hn (fun x _ => congrFun hmem x) (Allocated.congr hsame) (by rw [hsame])
      (by rw [hsame]) (fun k hk hne => h.mem m k hk hne) k

/-! ## The list and the references

A reference is held by a caller. `inode_get` finds the object of a number by its number alone, so
there must not be two of them, and an object must not leave the list while somebody holds it. -/

/-- The list has one inode for each number that is referenced, its count is the number of
references, and the inode is stored as it is in memory. -/
structure LifeOk (c : cache.Ideal) (sb : SuperBlock) (m : InodeList) (s : σ) (refs : List Nat) :
    Prop where
  fs : c.FsOk sb s
  unique : (m.list.map m.inodeNo).Nodup
  fresh : ∀ o ∈ m.list, o < m.next
  mem_refs : ∀ o, o ∈ refs ↔ o ∈ m.list
  count : ∀ o ∈ m.list, (m.objects o).count = refs.count o
  valid : ∀ o ∈ m.list, (m.objects o).inode.valid = true
  allocated : ∀ o ∈ m.list, c.Allocated sb s (m.inodeNo o)
  entry : ∀ o ∈ m.list,
    (m.objects o).inode.entry = loadedEntry (m.inodeNo o) (c.entryOf sb s (m.inodeNo o))

variable {l l' : InodeList} {refs : List Nat} {o p : Nat}

/-- At first nothing is in memory. -/
theorem LifeOk.start (h : c.FsOk sb s) : c.LifeOk sb .empty s [] := by
  refine ⟨h, List.nodup_nil, ?_, fun _ => Iff.rfl, ?_, ?_, ?_, ?_⟩
  all_goals
    intro o ho
    cases ho

/-- An object is in the list once. -/
theorem LifeOk.nodup (h : c.LifeOk sb l s refs) : l.list.Nodup := h.unique.of_map _

/-- An object is known by its inode number. -/
theorem LifeOk.inodeNo_inj (h : c.LifeOk sb l s refs) (ho : o ∈ l.list) (hp : p ∈ l.list)
    (heq : l.inodeNo o = l.inodeNo p) : o = p :=
  List.inj_on_of_nodup_map h.unique ho hp heq

/-- An object of the list is as it is stored: its number is that of an allocated inode, and its
entry is the one of the inode block. -/
theorem LifeOk.backed (h : c.LifeOk sb l s refs) (ho : o ∈ l.list) :
    c.Backed sb s (l.objects o).inode := by
  have hentry := h.entry o ho
  refine ⟨h.valid o ho, h.allocated o ho, ?_, ?_, ?_⟩
  · rw [hentry]
    exact type_loadedEntry (h.allocated o ho).2
  · rw [hentry]
    unfold loadedEntry
    split <;> rfl
  · rw [hentry]
    unfold loadedEntry
    split <;> rfl

/-- An inode whose stored entry is the same as before. -/
theorem LifeOk.keep (h : c.LifeOk sb l s refs) (ho : o ∈ l.list)
    (hentry : c.entryOf sb t (l.inodeNo o) = c.entryOf sb s (l.inodeNo o)) :
    c.Allocated sb t (l.inodeNo o) ∧
      (l.objects o).inode.entry = loadedEntry (l.inodeNo o) (c.entryOf sb t (l.inodeNo o)) := by
  refine ⟨(Allocated.congr hentry).mpr (h.allocated o ho), ?_⟩
  rw [hentry]
  exact h.entry o ho

/-- Calls that change the references to `o` and its object, which stays as it is stored. Everything
about the other objects is carried over here, once for all such calls. -/
theorem LifeOk.setObject (h : c.LifeOk sb l s refs) (ho : o ∈ l.list) {x : InodeRecord}
    {refs' : List Nat} (hxno : x.inode.inodeNo = l.inodeNo o) (hvalid : x.inode.valid = true)
    (hmem : o ∈ refs') (hcount : x.count = refs'.count o)
    (hrefs : ∀ p ≠ o, refs'.count p = refs.count p) (hfs : c.FsOk sb t)
    (halloc : c.Allocated sb t (l.inodeNo o))
    (hstored : x.inode.entry = loadedEntry (l.inodeNo o) (c.entryOf sb t (l.inodeNo o)))
    (hentry : ∀ m, m ≠ l.inodeNo o → c.entryOf sb t m = c.entryOf sb s m) :
    c.LifeOk sb (l.setObject o x) t refs' := by
  have hno : (l.setObject o x).inodeNo = l.inodeNo := InodeList.inodeNo_setObject hxno
  -- The entries of other inodes on the disk are as before, so their objects agree with them.
  have hkeep : ∀ p ∈ l.list, p ≠ o → c.Allocated sb t (l.inodeNo p) ∧
      (l.objects p).inode.entry = loadedEntry (l.inodeNo p) (c.entryOf sb t (l.inodeNo p)) := by
    intro p hp hpo
    apply h.keep hp
    apply hentry
    intro heq
    exact hpo (h.inodeNo_inj hp ho heq)
  constructor
  case fs => exact hfs
  case unique =>
    rw [hno]
    exact h.unique
  case fresh => exact h.fresh
  case mem_refs =>
    intro p
    by_cases hpo : p = o
    · subst hpo
      exact iff_of_true hmem ho
    · rw [← List.count_pos_iff, hrefs p hpo, List.count_pos_iff]
      exact h.mem_refs p
  case count =>
    intro p hp
    by_cases hpo : p = o
    · subst hpo
      rw [InodeList.objects_setObject_self]
      exact hcount
    · rw [InodeList.objects_setObject_of_ne hpo, hrefs p hpo]
      exact h.count p hp
  case valid =>
    intro p hp
    by_cases hpo : p = o
    · subst hpo
      rw [InodeList.objects_setObject_self]
      exact hvalid
    · rw [InodeList.objects_setObject_of_ne hpo]
      exact h.valid p hp
  case allocated =>
    intro p hp
    rw [hno]
    by_cases hpo : p = o
    · subst hpo
      exact halloc
    · exact (hkeep p hp hpo).1
  case entry =>
    intro p hp
    rw [hno]
    by_cases hpo : p = o
    · subst hpo
      rw [InodeList.objects_setObject_self]
      exact hstored
    · rw [InodeList.objects_setObject_of_ne hpo]
      exact (hkeep p hp hpo).2

/-- Calls that change the references to `o` and its count. -/
theorem LifeOk.setCount (h : c.LifeOk sb l s refs) (ho : o ∈ l.list) {refs' : List Nat}
    (hmem : o ∈ refs') (hother : ∀ p ≠ o, refs'.count p = refs.count p) {count : Int}
    (hcount : count = refs'.count o) :
    c.LifeOk sb (l.setObject o { l.objects o with count := count }) s refs' :=
  h.setObject ho rfl (h.valid o ho) hmem hcount hother h.fs (h.allocated o ho) (h.entry o ho)
    fun _ _ => rfl

/-- `inode_share`, and `inode_get` of an inode that is in the list. -/
theorem LifeOk.share (h : c.LifeOk sb l s refs) (ho : o ∈ l.list) :
    c.LifeOk sb (l.share o) s (o :: refs) := by
  refine h.setCount ho List.mem_cons_self ?_ ?_
  · intro p hp
    exact List.count_cons_of_ne (Ne.symm hp)
  · rw [List.count_cons_self, h.count o ho]
    rfl

/-- `inode_get` of an inode that is not in the list: a new object in front of it, loaded from the
disk, with one reference. -/
theorem LifeOk.add (h : c.LifeOk sb l s refs) (halloc : c.Allocated sb s n)
    (hnew : ∀ o ∈ l.list, l.inodeNo o ≠ n) (hmem : c.mem t = c.mem s)
    (hused : c.used t = c.used s) :
    c.LifeOk sb (l.add ⟨n, true, loadedEntry n (c.entryOf sb s n)⟩) t (l.next :: refs) := by
  have hentry : ∀ m, c.entryOf sb t m = c.entryOf sb s m := fun m => entryOf_congr (by rw [hmem])
  -- The object is new: it is not in the list, and no reference leads to it.
  have hold : ∀ o ∈ l.list, o ≠ l.next := fun o ho => Nat.ne_of_lt (h.fresh o ho)
  have hobj : ∀ o ∈ l.list, (l.add ⟨n, true, loadedEntry n (c.entryOf sb s n)⟩).objects o =
      l.objects o := fun o ho => InodeList.objects_setObject_of_ne (hold o ho) _
  have hno : ∀ o ∈ l.list, (l.add ⟨n, true, loadedEntry n (c.entryOf sb s n)⟩).inodeNo o =
      l.inodeNo o := fun o ho => congrArg (fun x => x.inode.inodeNo) (hobj o ho)
  have hobjNew : (l.add ⟨n, true, loadedEntry n (c.entryOf sb s n)⟩).objects l.next =
      ⟨⟨n, true, loadedEntry n (c.entryOf sb s n)⟩, 1⟩ := InodeList.objects_setObject_self ..
  have hnoNew : (l.add ⟨n, true, loadedEntry n (c.entryOf sb s n)⟩).inodeNo l.next = n :=
    congrArg (fun x => x.inode.inodeNo) hobjNew
  have hnext : l.next ∉ refs := fun hmem => hold _ ((h.mem_refs _).mp hmem) rfl
  constructor
  case fs => exact h.fs.of_eq hmem hused
  -- Its number is not in the list, which is why it was loaded.
  case unique =>
    show ((l.next :: l.list).map _).Nodup
    rw [List.map_cons, hnoNew, List.map_congr_left hno]
    refine List.nodup_cons.mpr ⟨?_, h.unique⟩
    intro hmem
    obtain ⟨o, ho, heq⟩ := List.mem_map.mp hmem
    exact hnew o ho heq
  case fresh =>
    intro o ho
    rcases List.mem_cons.mp ho with rfl | ho
    · exact Nat.lt_succ_self _
    · exact Nat.lt_succ_of_lt (h.fresh o ho)
  case mem_refs =>
    intro o
    show o ∈ l.next :: refs ↔ o ∈ l.next :: l.list
    rw [List.mem_cons, List.mem_cons, h.mem_refs]
  case count =>
    intro o ho
    rcases List.mem_cons.mp ho with rfl | ho
    · rw [hobjNew, List.count_cons_self, List.count_eq_zero.mpr hnext]
      rfl
    · rw [hobj o ho, List.count_cons_of_ne (Ne.symm (hold o ho))]
      exact h.count o ho
  case valid =>
    intro o ho
    rcases List.mem_cons.mp ho with rfl | ho
    · rw [hobjNew]
    · rw [hobj o ho]
      exact h.valid o ho
  case allocated =>
    intro o ho
    rcases List.mem_cons.mp ho with rfl | ho
    · rw [hnoNew]
      exact (Allocated.congr (hentry n)).mpr halloc
    · rw [hno o ho]
      exact (h.keep ho (hentry _)).1
  case entry =>
    intro o ho
    rcases List.mem_cons.mp ho with rfl | ho
    · rw [hnoNew, hobjNew, hentry]
    · rw [hno o ho, hobj o ho]
      exact (h.keep ho (hentry _)).2

/-- An inode goes from the list with its last reference. Its object is not looked at any more; its
number may come back with another object. -/
theorem LifeOk.remove (h : c.LifeOk sb l s refs) (ho : o ∈ l.list) (hlast : refs.count o = 1)
    (hfs : c.FsOk sb t) (hentry : ∀ m < sb.numInodes.toNat, m ≠ l.inodeNo o →
      c.entryOf sb t m = c.entryOf sb s m) (x : InodeRecord) :
    c.LifeOk sb { l.setObject o x with list := l.list.erase o } t (refs.erase o) := by
  have hmem : ∀ {p}, p ∈ l.list.erase o → p ≠ o ∧ p ∈ l.list := by
    intro p hp
    exact (h.nodup.mem_erase_iff).mp hp
  have hobj : ∀ p ∈ l.list.erase o, (l.setObject o x).objects p = l.objects p := fun p hp =>
    InodeList.objects_setObject_of_ne (hmem hp).1 _
  have hno : ∀ p ∈ l.list.erase o, (l.setObject o x).inodeNo p = l.inodeNo p := fun p hp =>
    congrArg (fun x => x.inode.inodeNo) (hobj p hp)
  have hkeep : ∀ p ∈ l.list.erase o, c.Allocated sb t (l.inodeNo p) ∧
      (l.objects p).inode.entry = loadedEntry (l.inodeNo p) (c.entryOf sb t (l.inodeNo p)) := by
    intro p hp
    obtain ⟨hpo, hp⟩ := hmem hp
    apply h.keep hp
    apply hentry _ (h.allocated p hp).1.2
    intro heq
    exact hpo (h.inodeNo_inj hp ho heq)
  constructor
  case fs => exact hfs
  case unique =>
    show ((l.list.erase o).map (l.setObject o x).inodeNo).Nodup
    rw [List.map_congr_left hno]
    exact h.unique.sublist ((List.erase_sublist).map _)
  case fresh =>
    intro p hp
    exact h.fresh p (hmem hp).2
  case mem_refs =>
    intro p
    show p ∈ refs.erase o ↔ p ∈ l.list.erase o
    by_cases hp : p = o
    · subst hp
      -- The last reference is gone, and so is the object.
      refine iff_of_false ?_ fun hp => (hmem hp).1 rfl
      rw [← List.count_pos_iff, List.count_erase_self, hlast]
      exact Nat.lt_irrefl 0
    · rw [List.mem_erase_of_ne hp, List.mem_erase_of_ne hp, h.mem_refs]
  case count =>
    intro p hp
    obtain ⟨hpo, hpl⟩ := hmem hp
    show ((l.setObject o x).objects p).count = _
    rw [hobj p hp, List.count_erase_of_ne hpo]
    exact h.count p hpl
  case valid =>
    intro p hp
    show ((l.setObject o x).objects p).inode.valid = true
    rw [hobj p hp]
    exact h.valid p (hmem hp).2
  case allocated =>
    intro p hp
    show c.Allocated sb t ((l.setObject o x).inodeNo p)
    rw [hno p hp]
    exact (hkeep p hp).1
  case entry =>
    intro p hp
    show ((l.setObject o x).objects p).inode.entry =
      loadedEntry ((l.setObject o x).inodeNo p) (c.entryOf sb t ((l.setObject o x).inodeNo p))
    rw [hno p hp, hobj p hp]
    exact (hkeep p hp).2

/-! ## Calls

Each of them keeps `LifeOk` if it returns; `inode_put` always does. -/

/-- `inode_alloc` does not take an inode that is in memory, as those are allocated, and so it leaves
the list in order. -/
theorem LifeOk.alloc (h : c.LifeOk sb l s refs) {type : UInt16}
    (hcall : inodeAlloc sb cache type s = .ok (n, t)) :
    c.LifeOk sb l t refs ∧ ∀ o ∈ l.list, l.inodeNo o ≠ n := by
  obtain ⟨-, hnot, hfs, hentry⟩ := h.fs.inodeAlloc hcall
  have hother : ∀ o ∈ l.list, l.inodeNo o ≠ n := by
    intro o ho heq
    exact hnot (heq ▸ h.allocated o ho)
  refine ⟨⟨hfs, h.unique, h.fresh, h.mem_refs, h.count, h.valid, ?_, ?_⟩, hother⟩
  · intro o ho
    exact (h.keep ho (hentry _ (hother o ho))).1
  · intro o ho
    exact (h.keep ho (hentry _ (hother o ho))).2

/-- `inode_get` returns the object of the list, or a new one in front of it. Either way the caller
has one reference more. -/
theorem LifeOk.get (h : c.LifeOk sb l s refs) {object : Option InodeEntry}
    (hcall : inodeGet sb cache n object l s = .ok (o, l', t)) : c.LifeOk sb l' t (o :: refs) := by
  obtain ⟨_, -, hcall⟩ := bind_eq_ok.mp hcall
  obtain ⟨_, -, hcall⟩ := bind_eq_ok.mp hcall
  cases hfind : l.getInodeInlist n with
  | some p =>
    rw [hfind] at hcall
    cases hcall
    exact h.share (List.mem_of_find?_eq_some hfind)
  | none =>
    rw [hfind] at hcall
    cases object with
    | none => cases hcall
    | some junk =>
      obtain ⟨⟨inode, s₁⟩, hload, hcall⟩ := bind_eq_ok.mp hcall
      obtain ⟨hn, htype, rfl, hmem, hused⟩ := inodeLoad_eq_ok c hload
      cases hcall
      refine h.add ⟨hn, htype⟩ ?_ hmem hused
      intro p hp heq
      exact List.find?_eq_none.mp hfind p hp (decide_eq_true heq)

/-- Changing the links stores the entry, and nothing else changes: neither the list nor the
references nor a block of the inode. -/
theorem LifeOk.links (h : c.LifeOk sb l s refs) (ho : o ∈ l.list) {numLinks : UInt16}
    (hcall : changeLinks sb cache o numLinks l s = .ok (l', t)) : c.LifeOk sb l' t refs := by
  obtain ⟨⟨inode, s₁⟩, hsync, hcall⟩ := bind_eq_ok.mp hcall
  have hb := h.backed ho
  obtain ⟨u, hsync', hfs, hentry⟩ := h.fs.inodeSync
    (⟨hb.valid, hb.allocated, hb.type, hb.addrs, hb.indirect⟩ : c.Backed sb s
      { (l.objects o).inode with entry := { (l.objects o).inode.entry with numLinks := numLinks } })
  rw [hsync'] at hsync
  cases hsync
  cases hcall
  have hentryo : c.entryOf sb t (l.inodeNo o) =
      { (l.objects o).inode.entry with numLinks := numLinks } := by
    rw [hentry]
    exact if_pos rfl
  have hroot : l.inodeNo o = 1 → (l.objects o).inode.entry.type = 1 := by
    intro h1
    rw [h.entry o ho, loadedEntry, if_pos h1]
  refine h.setObject ho rfl (h.valid o ho) ((h.mem_refs o).mpr ho) (h.count o ho) (fun _ _ => rfl)
    hfs ⟨hb.allocated.1, ?_⟩ ?_ fun m hm => ?_
  · rw [hentryo]
    exact hb.type
  · rw [hentryo]
    apply Eq.symm
    apply loadedEntry_eq
    exact hroot
  · rw [hentry]
    exact if_neg hm

/-- `inode_put` of a reference. If it is not the last one only the count changes; if it is, the
inode leaves memory and, without links, the disk as well. -/
theorem LifeOk.put (h : c.LifeOk sb l s refs) (ho : o ∈ refs) :
    ∃ l' t, inodePut sb cache o l s = .ok (l', t) ∧ c.LifeOk sb l' t (refs.erase o) ∧
      (refs.count o ≠ 1 → t = s ∧ l'.list = l.list) ∧
      (refs.count o = 1 → l'.list = l.list.erase o ∧
        (c.entryOf sb t (l.inodeNo o) = .zero ↔
          (l.objects o).inode.entry.numLinks = 0 ∧ l.inodeNo o ≠ 1) ∧
        c.used t = if (l.objects o).inode.entry.numLinks = 0 ∧ l.inodeNo o ≠ 1 then
          others numSlots ((c.entryOf sb s (l.inodeNo o)).slot (c.mem s)) (c.used s)
        else c.used s) ∧
      ∀ m < sb.numInodes.toNat, m ≠ l.inodeNo o → c.entryOf sb t m = c.entryOf sb s m := by
  have hol := (h.mem_refs o).mp ho
  have hcount := h.count o hol
  have hpos := List.count_pos_iff.mpr ho
  rw [inodePut]
  by_cases hlast : refs.count o = 1
  swap
  · -- other references remain
    dsimp only
    rw [if_pos (by omega)]
    refine ⟨_, s, rfl, ?_, fun _ => ⟨rfl, rfl⟩, fun h1 => absurd h1 hlast, fun _ _ _ => rfl⟩
    refine h.setCount hol ?_ ?_ ?_
    · rw [← List.count_pos_iff, List.count_erase_self]
      omega
    · intro p hp
      exact List.count_erase_of_ne hp
    · rw [List.count_erase_self, hcount]
      omega
  -- the last reference
  have hblock : others numSlots (c.blockOf sb s (l.inodeNo o)) (c.used s) =
      others numSlots ((c.entryOf sb s (l.inodeNo o)).slot (c.mem s)) (c.used s) :=
    others_congr fun k _ => (blockOf_allocated (h.allocated o hol) k).symm ▸ rfl
  dsimp only
  rw [if_neg (by omega)]
  by_cases hlinks : (l.objects o).inode.entry.numLinks = 0 ∧ l.inodeNo o ≠ 1
  · obtain ⟨inode', t, hput, hfs, hused, hentry⟩ := h.fs.destroy (h.backed hol) hlinks
    have hother : ∀ m < sb.numInodes.toNat, m ≠ l.inodeNo o →
        c.entryOf sb t m = c.entryOf sb s m := by
      intro m hm hne
      rw [hentry m hm]
      exact if_neg hne
    refine ⟨_, t, by rw [hput, ok_bind]; rfl, h.remove hol hlast hfs hother _,
      fun h1 => absurd hlast h1, fun _ => ⟨rfl, ?_, ?_⟩, hother⟩
    · refine iff_of_true ?_ hlinks
      rw [hentry _ (h.allocated o hol).1.2]
      exact if_pos rfl
    · rw [if_pos hlinks, ← hblock]
      exact hused
  · have hput : inodePutLast sb cache (l.objects o).inode s = .ok ((l.objects o).inode, s) := by
      rw [inodePutLast]
      exact if_neg hlinks
    refine ⟨_, s, by rw [hput, ok_bind]; rfl, h.remove hol hlast h.fs (fun _ _ _ => rfl) _,
      fun h1 => absurd hlast h1, fun _ => ⟨rfl, ?_, ?_⟩, fun _ _ _ => rfl⟩
    · refine iff_of_false ?_ hlinks
      intro hzero
      apply (h.allocated o hol).2
      rw [hzero]
      rfl
    · rw [if_neg hlinks]

/-- Every run keeps the list in order: each reference that is held is counted, and every number is
in the list once. -/
theorem LifeOk.run {s₀ : σ} (h : c.FsOk sb s₀) (hrun : LifeRun sb cache s₀ l s refs) :
    c.LifeOk sb l s refs := by
  induction hrun with
  | start => exact .start h
  | alloc _ call ih => exact (ih.alloc call).1
  | get _ call ih => exact ih.get call
  | share _ held ih => exact ih.share ((ih.mem_refs _).mp held)
  | put _ held _ call ih =>
    obtain ⟨l', t, hput, hok, -⟩ := ih.put held
    rw [hput] at call
    cases call
    exact hok
  | links _ held call ih => exact ih.links ((ih.mem_refs _).mp held) call

/-- The list has one inode for a number that is referenced, and none for another. -/
theorem LifeOk.length_filter (h : c.LifeOk sb l s refs) (n : Nat) :
    (l.list.filter fun o => l.inodeNo o = n).length =
      if ∃ o ∈ refs, l.inodeNo o = n then 1 else 0 := by
  split
  · next hex =>
    obtain ⟨o, ho, rfl⟩ := hex
    have hol := (h.mem_refs o).mp ho
    have hfilter : (l.list.filter fun p => l.inodeNo p = l.inodeNo o) = l.list.filter (· = o) := by
      refine List.filter_congr fun p hp => ?_
      rw [decide_eq_decide]
      constructor
      · exact h.inodeNo_inj hp hol
      · rintro rfl
        rfl
    rw [hfilter, ← List.countP_eq_length_filter]
    exact List.count_eq_one_of_mem h.nodup hol
  · next hex =>
    rw [List.length_eq_zero_iff, List.filter_eq_nil_iff]
    intro o ho heq
    exact hex ⟨o, (h.mem_refs o).mpr ho, of_decide_eq_true heq⟩

/-- References to an inode are references to the object that the list has for it. -/
theorem LifeOk.countP_refs (h : c.LifeOk sb l s refs) (ho : o ∈ l.list) :
    refs.countP (fun p => l.inodeNo p = l.inodeNo o) = refs.count o := by
  refine List.countP_congr fun p hp => ?_
  rw [decide_eq_true_iff, beq_iff_eq]
  constructor
  · exact h.inodeNo_inj ((h.mem_refs p).mp hp) ho
  · rintro rfl
    rfl

end BlockCache.Ideal

/-! ## Over structs

`onData` is the cache whose casts reach `data`. Calls without a cast are the same over both, and
only `inode_clear` of an inode with an indirect block uses one: it takes the first address in this
block from the `block_no` of the struct. -/

section Structs

variable {cache : BlockCache σ} {c : cache.Structs} {sb : SuperBlock} {inode inode' : Inode}
  {s s₀ t : σ} {m m' : InodeList} {refs : List Nat} {o : Nat}

/-- The loop over the direct blocks leaves the indirect one alone. By induction on the indices;
`valid` stays too, so the second part of `inode_clear` is taken as it would have been. -/
theorem indirect_clearDirect {l : List (Fin inodeNumDirect)}
    (h : l.foldlM (clearDirect cache) (inode, s) = .ok (inode', t)) :
    inode'.entry.indirect = inode.entry.indirect ∧ inode'.valid = inode.valid := by
  induction l generalizing inode s with
  | nil =>
    cases h
    exact ⟨rfl, rfl⟩
  | cons i l ih =>
    rw [List.foldlM_cons] at h
    obtain ⟨⟨inode₁, s₁⟩, hturn, h⟩ := bind_eq_ok.mp h
    obtain ⟨hind, hvalid⟩ := ih h
    rw [hind, hvalid]
    unfold clearDirect at hturn
    dsimp only at hturn
    split at hturn
    · split at hturn
      · obtain ⟨u, -, hturn⟩ := bind_eq_ok.mp hturn
        cases hturn
        exact ⟨rfl, rfl⟩
      · cases hturn
        exact ⟨rfl, rfl⟩
    · cases hturn
      exact ⟨rfl, rfl⟩

/-- The loop over the direct blocks uses no cast. -/
theorem clearDirect_onData (cache : BlockCache σ) : clearDirect cache.onData = clearDirect cache := rfl

/-- Storing the entry uses no cast. -/
theorem inodeSync_onData (inode : Inode) (s : σ) :
    inodeSync sb cache.onData inode true s = inodeSync sb cache inode true s := rfl

/-- Without an indirect block, `inode_clear` uses no cast, and so it does not matter which bytes the
casts would reach. -/
theorem inodeClear_onData (hind : inode.entry.indirect = 0) :
    inodeClear sb cache.onData inode s = inodeClear sb cache inode s := by
  unfold inodeClear
  rw [clearDirect_onData]
  generalize hcall : (List.finRange inodeNumDirect).foldlM (clearDirect cache) (inode, s) = r
  cases r with
  | error e => rw [error_bind, error_bind]
  | ok r =>
    obtain ⟨inode₁, s₁⟩ := r
    have hind₁ : inode₁.entry.indirect = 0 := (indirect_clearDirect hcall).1.trans hind
    have hnone : ¬ (inode₁.entry.indirect ≠ 0 ∧ inode₁.valid = true) := fun h => h.1 hind₁
    simp only [ok_bind, freeIndirect, if_neg hnone]
    exact inodeSync_onData _ s₁

/-- Unless its indirect block has to go, an inode is put without a cast. -/
theorem inodePut_onData (hdirect : ¬ (m.objects o).PutsIndirect) :
    inodePut sb cache.onData o m s = inodePut sb cache o m s := by
  unfold inodePut
  dsimp only
  split
  · rfl
  · next hlast =>
    unfold inodePutLast
    split
    · next hlinks =>
      have hind : (m.objects o).inode.entry.indirect = 0 := by
        by_contra hne
        exact hdirect ⟨by omega, hlinks, hne⟩
      rw [inodeClear_onData hind]
      rfl
    · rfl

/-- A run is one that uses no cast. -/
theorem LifeRun.onData (hrun : LifeRun sb cache s₀ m s refs) : LifeRun sb cache.onData s₀ m s refs := by
  induction hrun with
  | start => exact .start
  | alloc _ call ih => exact .alloc ih ((BlockCache.inodeAlloc_onData sb cache _ _).trans call)
  | get _ call ih => exact .get ih call
  | share _ held ih => exact .share ih held
  | put _ held direct call ih => exact .put ih held direct ((inodePut_onData direct).trans call)
  | links _ held call ih => exact .links ih held call

namespace BlockCache.Structs

/-- What the loop over the indirect block frees stays free. It frees whatever its cast reads there,
and allocates nothing. -/
theorem used_clearIndirect (c : cache.Structs) {b : Nat} {l : List Nat}
    (h : l.foldlM (clearIndirect cache b) s = .ok t) : c.used t ⊆ c.used s := by
  induction l generalizing s with
  | nil =>
    cases h
    exact Finset.Subset.refl _
  | cons i l ih =>
    rw [List.foldlM_cons] at h
    obtain ⟨s₁, hturn, h⟩ := bind_eq_ok.mp h
    refine (ih h).trans ?_
    unfold clearIndirect at hturn
    rw [c.bytes, ok_bind] at hturn
    split at hturn
    · next hne =>
      rw [(c.used_free hturn).2]
      exact Finset.erase_subset _ _
    · cases hturn
      exact Finset.Subset.refl _

/-- With `block_no` for the first address, `inode_clear` frees the indirect block twice: once as the
first block it lists, once as itself. The second time it is free already, and `free` panics. -/
theorem inodeClear_ne_ok (c : cache.Structs) (hind : inode.entry.indirect ≠ 0)
    (hvalid : inode.valid = true)
    (hno : ∀ s, (c.castMem s inode.entry.indirect.toNat).u32 0 = inode.entry.indirect) :
    inodeClear sb cache inode s ≠ .ok (inode', t) := by
  intro h
  obtain ⟨⟨inode₁, s₁⟩, hloop, h⟩ := bind_eq_ok.mp h
  obtain ⟨s₂, hfree, -⟩ := bind_eq_ok.mp h
  obtain ⟨hind₁, hvalid₁⟩ := indirect_clearDirect hloop
  unfold freeIndirect at hfree
  rw [hind₁, hvalid₁, if_pos ⟨hind, hvalid⟩] at hfree
  obtain ⟨s₃, -, hfree⟩ := bind_eq_ok.mp hfree
  obtain ⟨s₄, hturns, hfree⟩ := bind_eq_ok.mp hfree
  obtain ⟨s₅, hrelease, hfree⟩ := bind_eq_ok.mp hfree
  have hrange : List.range inodeNumIndirect = 0 :: (List.range (inodeNumIndirect - 1)).map Nat.succ := by
    rw [← List.range_succ_eq_map]
    rfl
  rw [hrange, List.foldlM_cons] at hturns
  obtain ⟨s', hfirst, hturns⟩ := bind_eq_ok.mp hturns
  have hbytes : cache.bytes inode.entry.indirect.toNat s₃ =
      .ok (c.castMem s₃ inode.entry.indirect.toNat) := c.bytes _ s₃
  rw [clearIndirect, hbytes, ok_bind, hno s₃, if_pos hind] at hfirst
  -- the block that the loop frees first is the one that is freed at the end
  have hgone : inode.entry.indirect.toNat ∉ c.used s' := by
    rw [(c.used_free hfirst).2]
    exact Finset.notMem_erase _ _
  have hused₅ : c.used s₅ = c.used s₄ := by
    obtain ⟨u, hcall, -, hused⟩ := c.release inode.entry.indirect.toNat s₄
    rw [hcall] at hrelease
    cases hrelease
    exact hused
  refine hgone (c.used_clearIndirect hturns ?_)
  rw [← hused₅]
  exact (c.used_free hfree).1

end BlockCache.Structs

end Structs

/-- **The life of inodes.** In every state of a sequential run that starts with a file system in
order and puts no inode whose indirect block has to go, the list has one inode for each number with
references, with their number as its count. `inode_put` of the last reference takes the inode from
the list; it clears the stored entry and gives the blocks back exactly if the inode has no links and
is not the root. The entries of other inodes stay as they are, and `inode_alloc` returns no number
that is referenced. Where an indirect block has to go, `inode_put` does not return: the first
address that it reads is `block_no`, and it frees the indirect block twice. -/
theorem inode_lifecycle {cache : BlockCache σ} (c : cache.Structs) {sb : SuperBlock} {s₀ s : σ}
    {m : InodeList} {refs : List Nat} (hno : ∀ s b, (c.castMem s b).u32 0 = .ofNat b)
    (hfs : c.dataIdeal.FsOk sb s₀) (hrun : LifeRun sb cache s₀ m s refs) :
    (∀ n, (m.list.filter fun o => m.inodeNo o = n).length =
      if ∃ o ∈ refs, m.inodeNo o = n then 1 else 0) ∧
    (∀ o ∈ m.list, (m.objects o).count = refs.countP fun p => m.inodeNo p = m.inodeNo o) ∧
    (∀ o ∈ refs, ¬ (m.objects o).PutsIndirect → ∃ m' t, inodePut sb cache o m s = .ok (m', t) ∧
      (refs.count o ≠ 1 → t = s ∧ m'.list = m.list) ∧
      (refs.count o = 1 → m'.list = m.list.erase o ∧ o ∉ m'.list ∧
        (c.entryOf sb t (m.inodeNo o) = .zero ↔
          (m.objects o).inode.entry.numLinks = 0 ∧ m.inodeNo o ≠ 1) ∧
        c.used t = if (m.objects o).inode.entry.numLinks = 0 ∧ m.inodeNo o ≠ 1 then
          others numSlots ((c.entryOf sb s (m.inodeNo o)).slot (c.mem s)) (c.used s)
        else c.used s) ∧
      ∀ n < sb.numInodes.toNat, n ≠ m.inodeNo o → c.entryOf sb t n = c.entryOf sb s n) ∧
    (∀ o ∈ refs, (m.objects o).PutsIndirect → ∀ m' t, inodePut sb cache o m s ≠ .ok (m', t)) ∧
    ∀ type n t, inodeAlloc sb cache type s = .ok (n, t) → ∀ o ∈ refs, m.inodeNo o ≠ n := by
  have h := BlockCache.Ideal.LifeOk.run hfs hrun.onData
  refine ⟨h.length_filter, ?_, ?_, ?_, ?_⟩
  · intro o ho
    rw [h.countP_refs ho]
    exact h.count o ho
  · intro o ho hdirect
    -- Without the indirect block no cast is used, so it is as over plain content.
    obtain ⟨m', t, hput, -, hmore, hlast, hother⟩ := h.put ho
    rw [inodePut_onData hdirect] at hput
    refine ⟨m', t, hput, hmore, ?_, hother⟩
    intro h1
    obtain ⟨hlist, hrest⟩ := hlast h1
    refine ⟨hlist, ?_, hrest⟩
    rw [hlist]
    intro hmem
    exact (h.nodup.mem_erase_iff.mp hmem).1 rfl
  · rintro o ho ⟨hlast, hlinks, hind⟩ m' t hput
    have hvalid := h.valid o ((h.mem_refs o).mp ho)
    rw [inodePut, hlast, if_neg (by decide)] at hput
    obtain ⟨⟨inode, s₁⟩, hput, -⟩ := bind_eq_ok.mp hput
    rw [inodePutLast, if_pos hlinks] at hput
    obtain ⟨⟨inode₁, s₂⟩, hclear, -⟩ := bind_eq_ok.mp hput
    -- The first member of the struct is its number, and this is what the cast takes for an address.
    refine c.inodeClear_ne_ok hind hvalid (fun s => ?_) hclear
    rw [hno, UInt32.ofNat_toNat]
  · intro type n t hcall o ho
    exact (h.alloc ((BlockCache.inodeAlloc_onData sb cache type s).trans hcall)).2 o
      ((h.mem_refs o).mp ho)

/-- A file that is created, opened and closed without a link to it is gone. -/
theorem inode_lifecycle_unlinked :
    ∃ n t o m u m' v,
      inodeAlloc (smallSuperBlock 20) structMock 2 ⟨fun _ => .zero, {100}⟩ = .ok (n, t) ∧
      inodeGet (smallSuperBlock 20) structMock n (some .zero) .empty t = .ok (o, m, u) ∧
      inodePut (smallSuperBlock 20) structMock o m u = .ok (m', v) ∧
      m'.list = [] ∧ structMockStructs.entryOf (smallSuperBlock 20) v n = .zero := by
  have hfs : structMockStructs.dataIdeal.FsOk (smallSuperBlock 20) ⟨fun _ => .zero, {100}⟩ := by
    have hnone : ∀ n k, structMockStructs.dataIdeal.blockOf (smallSuperBlock 20)
        ⟨fun _ => .zero, {100}⟩ n k = 0 := by
      intro n k
      refine BlockCache.Ideal.blockOf_not_allocated (fun halloc => halloc.2 ?_) k
      show (getEntry .zero n).type = 0
      simp [getEntry, InodeEntry.ofBytes, leU16, leNat]
    refine ⟨by decide, ?_, ?_, ?_⟩
    · intro n k _ hne
      exact absurd (hnone n k) hne
    · intro n k _ hne
      exact absurd (hnone n k) hne
    · intro n _ k _ _ _ hne
      exact absurd (hnone n k) hne
  obtain ⟨_, hcalls⟩ := exists_ok (x := do
    let a ← inodeAlloc (smallSuperBlock 20) structMock 2 ⟨fun _ => .zero, {100}⟩
    let g ← inodeGet (smallSuperBlock 20) structMock a.1 (some .zero) .empty a.2
    kassert ((g.2.1.objects g.1).inode.entry.numLinks = 0 ∧ g.2.1.inodeNo g.1 = a.1 ∧ a.1 ≠ 1 ∧
      g.2.1.list = [g.1] ∧ (g.2.1.objects g.1).inode.entry.indirect = 0) "a file without links")
    (by decide +kernel)
  obtain ⟨⟨n, t⟩, halloc, hcalls⟩ := bind_eq_ok.mp hcalls
  obtain ⟨⟨o, m, u⟩, hget, hcalls⟩ := bind_eq_ok.mp hcalls
  obtain ⟨hlinks, rfl, hne, hlist, hind⟩ := kassert_eq_ok.mp hcalls
  obtain ⟨-, -, hput, -⟩ := inode_lifecycle structMockStructs structMock_blockNo hfs
    (.get (.alloc .start halloc) hget)
  obtain ⟨m', v, hcall, -, hlast, -⟩ := hput o List.mem_cons_self fun hputs => hputs.2.2 hind
  obtain ⟨herase, -, hzero, -⟩ := hlast List.count_cons_self
  refine ⟨_, t, o, m, u, m', v, halloc, hget, hcall, ?_, hzero.mpr ⟨hlinks, hne⟩⟩
  rw [herase, hlist, List.erase_cons_head]

/-- A file without links of 13 blocks, inode `2`: the direct ones from `1000` on, and block `1013`,
whose address is in block `1012`. -/
def unlinkedFile : Inode := ⟨2, true, { InodeEntry.zero with
  type := 2, numBytes := 6200, indirect := 1012, addrs := fun k => 1000 + .ofNat k }⟩

/-- The mock with this file as it is on a disk: its entry in block 100, and an indirect block 1012
with one address. -/
def unlinkedState : MockState :=
  ⟨fun b => if b = 100 then putEntry .zero 2 unlinkedFile.entry
    else if b = 1012 then BlockData.zero.setU32 0 1013 else .zero,
    insert 100 (List.range' 1000 14).toFinset⟩

/-- This disk is in order: every inode but this one is free, its blocks are in use, and no two of
its slots name the same block. -/
theorem unlinkedState_fsOk :
    structMockStructs.dataIdeal.FsOk (smallSuperBlock 20) unlinkedState := by
  -- Everything about this one file can be computed.
  have hslot : ∀ k < numSlots, unlinkedFile.entry.slot unlinkedState.mem k =
      if k < 12 then 1000 + k else if k = 12 then 1013 else if k = 140 then 1012 else 0 := by
    decide +kernel
  have hentry : structMockStructs.dataIdeal.entryOf (smallSuperBlock 20) unlinkedState 2 =
      unlinkedFile.entry := by
    show getEntry (putEntry .zero 2 unlinkedFile.entry) 2 = _
    rw [getEntry_putEntry, if_pos rfl]
  -- No other entry of the inode block has a type.
  have hother : ∀ n < (smallSuperBlock 20).numInodes.toNat, n ≠ 2 →
      (structMockStructs.dataIdeal.entryOf (smallSuperBlock 20) unlinkedState n).type =
        inodeInvalid := by
    decide +kernel
  have hblock : ∀ n k, k < numSlots →
      structMockStructs.dataIdeal.blockOf (smallSuperBlock 20) unlinkedState n k =
        if n = 2 then unlinkedFile.entry.slot unlinkedState.mem k else 0 := by
    intro n k hk
    split
    · next hn =>
      subst hn
      rw [BlockCache.Ideal.blockOf_allocated, hentry]
      · rfl
      · refine ⟨by decide, ?_⟩
        rw [hentry]
        decide
    · next hn =>
      exact BlockCache.Ideal.blockOf_not_allocated (fun halloc => halloc.2 (hother n halloc.1.2 hn)) k
  have hused : ∀ b, b ∈ structMockStructs.dataIdeal.used unlinkedState ↔
      b = 100 ∨ 1000 ≤ b ∧ b < 1014 := by
    intro b
    show b ∈ insert 100 (List.range' 1000 14).toFinset ↔ _
    rw [Finset.mem_insert, List.mem_toFinset, List.mem_range'_1]
  have hinodes : ∀ b ∈ inodeBlocks (smallSuperBlock 20), b = 100 := by decide
  have hrange : ∀ n k, k < numSlots →
      structMockStructs.dataIdeal.blockOf (smallSuperBlock 20) unlinkedState n k ≠ 0 →
      n = 2 ∧ 1000 ≤ unlinkedFile.entry.slot unlinkedState.mem k ∧
        unlinkedFile.entry.slot unlinkedState.mem k < 1014 := by
    intro n k hk hne
    rw [hblock n k hk] at hne
    by_cases hn : n = 2
    · rw [if_pos hn, hslot k hk] at hne
      rw [hslot k hk]
      refine ⟨hn, ?_⟩
      split_ifs at hne ⊢ <;> omega
    · rw [if_neg hn] at hne
      exact absurd rfl hne
  refine ⟨?_, ?_, ?_, ?_⟩
  · intro b hb
    rw [hused, hinodes b hb]
    exact .inl rfl
  · intro n k hk hne
    obtain ⟨hn, hmin, hmax⟩ := hrange n k hk hne
    rw [hused, hblock n k hk, if_pos hn]
    exact .inr ⟨hmin, hmax⟩
  · intro n k hk hne hmem
    obtain ⟨hn, hmin, -⟩ := hrange n k hk hne
    have heq := hinodes _ hmem
    rw [hblock n k hk, if_pos hn] at heq
    omega
  · intro n n' k hk k' hk' hne heq
    have hne' := heq ▸ hne
    obtain ⟨hn, hmin, -⟩ := hrange n k hk hne
    obtain ⟨hn', hmin', -⟩ := hrange n' k' hk' hne'
    rw [hblock n k hk, hblock n' k' hk', if_pos hn, if_pos hn', hslot k hk, hslot k' hk'] at heq
    rw [hslot k hk] at hmin
    rw [hslot k' hk'] at hmin'
    refine ⟨hn.trans hn'.symm, ?_⟩
    split_ifs at heq hmin hmin' <;> omega

/-- The file is opened and closed: `inode_put` frees block `1012` twice and does not return. -/
theorem unlinked_file_is_not_freed :
    structMockStructs.dataIdeal.FsOk (smallSuperBlock 20) unlinkedState ∧ ∃ o m s,
      LifeRun (smallSuperBlock 20) structMock unlinkedState m s [o] ∧
      (m.objects o).inode.entry.numLinks = 0 ∧ m.inodeNo o = 2 ∧
      ∀ m' t, inodePut (smallSuperBlock 20) structMock o m s ≠ .ok (m', t) := by
  refine ⟨unlinkedState_fsOk, ?_⟩
  obtain ⟨_, hcalls⟩ := exists_ok (x := do
    let g ← inodeGet (smallSuperBlock 20) structMock 2 (some .zero) .empty unlinkedState
    kassert ((g.2.1.objects g.1).inode.entry.numLinks = 0 ∧ g.2.1.inodeNo g.1 = 2 ∧
      (inodePut (smallSuperBlock 20) structMock g.1 g.2.1 g.2.2).toOption.isNone) "no return")
    (by decide +kernel)
  obtain ⟨⟨o, m, s⟩, hget, hcalls⟩ := bind_eq_ok.mp hcalls
  obtain ⟨hlinks, hno, hnone⟩ := kassert_eq_ok.mp hcalls
  refine ⟨o, m, s, .get .start hget, hlinks, hno, fun m' t hput => ?_⟩
  rw [hput] at hnone
  cases hnone

end KernelAarch64.Fs
