import KernelAarch64.Common.String
import KernelAarch64.Fs.Inode.Loaded

/-!
# Directory entries (`inode_lookup`, `inode_insert`, `inode_remove`)

A directory is a file of 16-byte `DirEntry` records. `inode_insert` appends a record, `inode_remove`
overwrites one with zeros and gives it up if it is the last one, and `inode_lookup` reads the file
block by block and compares names.

The records may hold anything here (`HoldsEntries`): a name that fills its field has no terminator,
and a record that is free may still have a name.

The comparison of names is in `memcmp_entry`, the inner loop of `inode_lookup` in
`lookupEntries_eq`, and the outer one in `HoldsEntries.inodeLookupFrom`; together they say that a
lookup is `findEntry` on the list of entries (`HoldsEntries.inodeLookup`). The two calls that change
a directory are file writes of one entry (`HoldsEntries.inodeInsert_cases`,
`HoldsEntries.inodeRemove_cases`).
-/

namespace KernelAarch64.Fs

open KernelAarch64.Lib

/-- `FILE_NAME_MAX_LENGTH` -/
abbrev fileNameMaxLength : Nat := 14

/-- `INODE_DIRECTORY` -/
abbrev inodeDirectory : UInt16 := 1

/-- `DirEntry`. The name is an array of `FILE_NAME_MAX_LENGTH` bytes. -/
@[ext]
structure DirEntry where
  inodeNo : UInt16
  name : List UInt8

/-- `sizeof(DirEntry)` -/
abbrev dirEntrySize : Nat := 2 + fileNameMaxLength

namespace DirEntry

/-- The bytes of a `DirEntry` in memory. -/
def bytes (e : DirEntry) : List UInt8 :=
  [leByte e.inodeNo.toNat 0, leByte e.inodeNo.toNat 1] ++ e.name

/-- The `DirEntry` at the beginning of `buffer`. -/
def ofBytes (buffer : List UInt8) : DirEntry where
  inodeNo := leU16 (fun k => buffer.getD k 0) 0
  name := (buffer.drop 2).take fileNameMaxLength

/-- An entry is read back from its bytes. -/
theorem ofBytes_append {e : DirEntry} (he : e.name.length = fileNameMaxLength)
    (rest : List UInt8) : ofBytes (e.bytes ++ rest) = e := by
  apply DirEntry.ext
  · show leU16 (fun k => (e.bytes ++ rest).getD k 0) 0 = e.inodeNo
    refine leU16_of_bytes fun k hk => ?_
    match k, hk with
    | 0, _ => rfl
    | 1, _ => rfl
  · show List.take fileNameMaxLength (e.name ++ rest) = e.name
    rw [← he]
    exact List.take_left

theorem length_bytes {e : DirEntry} (he : e.name.length = fileNameMaxLength) :
    e.bytes.length = dirEntrySize := by
  rw [bytes, List.length_append, he]
  rfl

end DirEntry

variable {σ : Type}

/-! ## The calls

As the source has them: `inode_lookup` reads a block of entries at a time into a buffer, and
`inode_remove` changes `num_bytes` in memory only. -/

/-- The inner loop of `inode_lookup` from `in_block` on, with `n` turns to go: the index and the
inode number of the first entry in the buffer that has the name. -/
def lookupEntries (numBytes blockIndex : Nat) (name buffer : List UInt8) :
    Nat → Nat → Except Stop (Option (Nat × UInt16))
  | 0, _ => .ok none
  | n + 1, inBlock => do
    kassert (inBlock + blockIndex < numBytes) "in_block+block_index < entry->num_bytes"
    let dirEntry := DirEntry.ofBytes (buffer.drop inBlock)
    if memcmp name dirEntry.name (strlen name + 1) = 0 then
      return some (blockIndex + inBlock, dirEntry.inodeNo)
    else lookupEntries numBytes blockIndex name buffer n (inBlock + dirEntrySize)

/-- The outer loop of `inode_lookup` from `block_index` on, with `n` turns to go. A turn reads what
the directory has in one block and searches it. -/
def inodeLookupFrom (cache : BlockCache σ) (inode : Inode) (name : List UInt8) :
    Nat → Nat → σ → Except Stop (Option (Nat × UInt16) × σ)
  | 0, _, s => .ok (none, s)
  | n + 1, blockIndex, s => do
    let numBytes := inode.entry.numBytes.toNat
    let len := min (blockIndex + blockSize) numBytes - blockIndex
    let (buffer, s) ← inodeRead cache inode blockIndex len s
    let found ← lookupEntries numBytes blockIndex name buffer
      ((len + (dirEntrySize - 1)) / dirEntrySize) 0
    match found with
    | some hit => return (some hit, s)
    | none => inodeLookupFrom cache inode name n (blockIndex + blockSize) s

/-- What `inode_lookup` returns, and what `*index` is then. -/
def lookupResult (index : Option Nat) : Option (Nat × UInt16) → Nat × Option Nat
  | some (i, inodeNo) => (inodeNo.toNat, index.map fun _ => i)
  | none => (0, index)

/-- `inode_lookup`. The argument `index` is `none` for `NULL`, else what the pointer points to; the
result is the inode number and the new value of `*index`. -/
def inodeLookup (cache : BlockCache σ) (inode : Inode) (name : List UInt8) (index : Option Nat)
    (s : σ) : Except Stop ((Nat × Option Nat) × σ) := do
  kassert (inode.entry.type = inodeDirectory) "entry->type == INODE_DIRECTORY"
  kassert (inode.entry.numBytes.toNat % dirEntrySize = 0)
    "entry->num_bytes % sizeof(DirEntry) == 0"
  kassert (strlen name < fileNameMaxLength) "strlen(name) < FILE_NAME_MAX_LENGTH"
  -- `while (block_index <= entry->num_bytes)`
  let (found, s) ←
    inodeLookupFrom cache inode name (inode.entry.numBytes.toNat / blockSize + 1) 0 s
  return (lookupResult index found, s)

/-- `inode_insert`. The result is the index of the new entry and the inode. The entry is appended; a
free one before it is not used again. -/
def inodeInsert (sb : SuperBlock) (cache : BlockCache σ) (inode : Inode) (name : List UInt8)
    (inodeNo : Nat) (s : σ) : Except Stop (Nat × Inode × σ) := do
  kassert (inode.entry.type = inodeDirectory) "entry->type == INODE_DIRECTORY"
  kassert (inode.entry.numBytes.toNat % dirEntrySize = 0)
    "entry->num_bytes % sizeof(DirEntry) == 0"
  kassert (inode.entry.numBytes.toNat < inodeMaxBytes) "entry->num_bytes < INODE_MAX_BYTES"
  let numBytes := inode.entry.numBytes.toNat
  let dirEntry : DirEntry := ⟨.ofNat inodeNo, strncpy name fileNameMaxLength⟩
  let (inode, s) ← inodeWrite sb cache inode dirEntry.bytes numBytes s
  return (numBytes, inode, s)

/-- `inode_remove`. It writes zeros over the entry and drops it if it is the last one. The new
`num_bytes` is not written to the block of the inode. -/
def inodeRemove (sb : SuperBlock) (cache : BlockCache σ) (inode : Inode) (index : Nat) (s : σ) :
    Except Stop (Inode × σ) := do
  kassert (inode.entry.type = inodeDirectory) "entry->type == INODE_DIRECTORY"
  kassert (index < inodeMaxBytes) "index < INODE_MAX_BYTES"
  kassert (index % dirEntrySize = 0) "index % sizeof(DirEntry) == 0"
  if inode.entry.numBytes.toNat ≤ index then return (inode, s)
  else
    let (inode, s) ← inodeWrite sb cache inode (List.replicate dirEntrySize 0) index s
    if index + dirEntrySize = inode.entry.numBytes.toNat then
      return (inode.setNumBytes (.ofNat index), s)
    else return (inode, s)

/-! ## The entries of a file

The functions on lists of entries that the calls amount to. -/

/-- The content of a directory with the given entries. -/
def entriesFile (entries : List DirEntry) : File := entries.flatMap DirEntry.bytes

/-- The string in the name field, up to its terminator or the end of the field. -/
def DirEntry.cname (e : DirEntry) : List UInt8 := e.name.takeWhile (· ≠ 0)

/-- The name is an array of `FILE_NAME_MAX_LENGTH` bytes. -/
def DirEntry.Sized (e : DirEntry) : Prop := e.name.length = fileNameMaxLength

/-- The first entry with the name, with its index and its inode number; `i` is the index of the
first entry of the list. -/
def findEntry (name : List UInt8) : List DirEntry → Nat → Option (Nat × UInt16)
  | [], _ => none
  | e :: entries, i =>
    if e.cname = name then some (i, e.inodeNo) else findEntry name entries (i + dirEntrySize)

/-- What `inode_remove` does to the entries: the last one is cut off, and any other is overwritten
with zeros. -/
def removeEntry (entries : List DirEntry) (i : Nat) : List DirEntry :=
  if i + 1 = entries.length then entries.take i
  else entries.set i ⟨0, List.replicate fileNameMaxLength 0⟩

variable {entries : List DirEntry} {e : DirEntry} {name : List UInt8} {i : Nat}

/-- The bytes of the first entry come first. -/
theorem entriesFile_cons (e : DirEntry) (entries : List DirEntry) :
    entriesFile (e :: entries) = e.bytes ++ entriesFile entries := rfl

theorem entriesFile_append (xs ys : List DirEntry) :
    entriesFile (xs ++ ys) = entriesFile xs ++ entriesFile ys :=
  List.flatMap_append

/-- The size of a directory. -/
theorem length_entriesFile (h : ∀ e ∈ entries, e.Sized) :
    (entriesFile entries).length = dirEntrySize * entries.length := by
  induction entries with
  | nil => rfl
  | cons e entries ih =>
    rw [entriesFile_cons, List.length_append, ih fun x hx => h x (List.mem_cons_of_mem e hx),
      DirEntry.length_bytes (h e List.mem_cons_self), List.length_cons, Nat.mul_succ, Nat.add_comm]

/-- The file is cut between two entries where the list is cut, because all entries have the same
size. -/
theorem entriesFile_take_drop (h : ∀ e ∈ entries, e.Sized) (i : Nat) :
    (entriesFile entries).take (dirEntrySize * i) = entriesFile (entries.take i) ∧
      (entriesFile entries).drop (dirEntrySize * i) = entriesFile (entries.drop i) := by
  rcases Nat.le_total i entries.length with hi | hi
  · have hsplit : entriesFile entries =
        entriesFile (entries.take i) ++ entriesFile (entries.drop i) := by
      rw [← entriesFile_append, List.take_append_drop]
    have hlen : (entriesFile (entries.take i)).length = dirEntrySize * i := by
      rw [length_entriesFile fun e he => h e (List.mem_of_mem_take he), List.length_take,
        Nat.min_eq_left hi]
    rw [hsplit]
    exact ⟨List.take_left' hlen, List.drop_left' hlen⟩
  · have hlen : (entriesFile entries).length ≤ dirEntrySize * i := by
      rw [length_entriesFile h]
      exact Nat.mul_le_mul_left _ hi
    rw [List.take_of_length_le hlen, List.take_of_length_le hi, List.drop_eq_nil_of_le hlen,
      List.drop_eq_nil_of_le hi]
    exact ⟨rfl, rfl⟩

/-- Overlaying an entry at its index replaces or appends one. -/
theorem entriesFile_write (h : ∀ e ∈ entries, e.Sized) (he : e.Sized) (i : Nat) :
    (entriesFile entries).write (dirEntrySize * i) e.bytes =
      entriesFile (entries.take i ++ e :: entries.drop (i + 1)) := by
  rw [File.write, DirEntry.length_bytes he, ← Nat.mul_succ, (entriesFile_take_drop h i).1,
    (entriesFile_take_drop h (i + 1)).2, entriesFile_append, entriesFile_cons, List.append_assoc]

/-- A search goes on in the second list if the first one has no such name. -/
theorem findEntry_append (xs ys : List DirEntry) (i : Nat) :
    findEntry name (xs ++ ys) i =
      (findEntry name xs i).or (findEntry name ys (i + dirEntrySize * xs.length)) := by
  induction xs generalizing i with
  | nil => rfl
  | cons x xs ih =>
    rw [List.cons_append, findEntry, findEntry]
    split
    · rfl
    · rw [ih, List.length_cons, Nat.mul_succ, Nat.add_assoc, Nat.add_comm dirEntrySize]

/-! ## Looking up a name

Nothing here looks at the inode number of an entry, which is how free entries can be found. -/

/-- Names are compared with their terminator, so an entry matches only if its name is the same. -/
theorem memcmp_entry (hname : 0 ∉ name) (hlen : name.length < fileNameMaxLength) (he : e.Sized) :
    memcmp name e.name (strlen name + 1) = 0 ↔ e.cname = name := by
  have hlt : name.length < e.name.length := hlen.trans_eq he.symm
  rw [strlen_eq_length hname, memcmp_eq_zero_iff hname hlt]
  rfl

/-- The inner loop searches the entries in the buffer. By induction on them: the buffer begins with
the first entry, and the search goes on behind it. -/
theorem lookupEntries_eq {numBytes blockIndex inBlock : Nat} {buffer : List UInt8}
    (hname : 0 ∉ name) (hlen : name.length < fileNameMaxLength) (h : ∀ e ∈ entries, e.Sized)
    (hbuffer : buffer.drop inBlock = entriesFile entries)
    (hend : inBlock + blockIndex + dirEntrySize * entries.length ≤ numBytes) :
    lookupEntries numBytes blockIndex name buffer entries.length inBlock =
      .ok (findEntry name entries (blockIndex + inBlock)) := by
  induction entries generalizing inBlock with
  | nil => rfl
  | cons e entries ih =>
    have he : e.Sized := h e List.mem_cons_self
    have hentry : DirEntry.ofBytes (buffer.drop inBlock) = e := by
      rw [hbuffer, entriesFile_cons]
      exact DirEntry.ofBytes_append he _
    have hnext : buffer.drop (inBlock + dirEntrySize) = entriesFile entries := by
      rw [← List.drop_drop, hbuffer, entriesFile_cons]
      exact List.drop_left' (DirEntry.length_bytes he)
    rw [List.length_cons, Nat.mul_succ] at hend
    have hlt : inBlock + blockIndex < numBytes := by
      unfold dirEntrySize at hend
      omega
    rw [List.length_cons, lookupEntries, kassert_of hlt, ok_bind]
    simp only [hentry, memcmp_entry hname hlen he, findEntry]
    split
    · rfl
    · rw [ih (fun x hx => h x (List.mem_cons_of_mem _ hx)) hnext (by omega), Nat.add_assoc]

/-- A block has the bytes of 32 entries, or of those that are left in the last block of the
directory. -/
theorem read_entriesFile_block (h : ∀ e ∈ entries, e.Sized) (j : Nat) :
    (entriesFile entries).read (j * blockSize)
        (dirEntrySize * ((entries.drop (32 * j)).take 32).length) =
      entriesFile ((entries.drop (32 * j)).take 32) := by
  have hcut : j * blockSize = dirEntrySize * (32 * j) := by
    unfold dirEntrySize fileNameMaxLength blockSize
    omega
  have hdrop : ∀ e ∈ entries.drop (32 * j), e.Sized := fun e he => h e (List.mem_of_mem_drop he)
  rw [File.read, hcut, (entriesFile_take_drop h (32 * j)).2, (entriesFile_take_drop hdrop _).1,
    ← List.prefix_iff_eq_take.mp (List.take_prefix _ _)]

/-- The search goes through the entries of one block and then on to the next. -/
theorem findEntry_block (entries : List DirEntry) (j : Nat) :
    findEntry name (entries.drop (32 * j)) (j * blockSize) =
      (findEntry name ((entries.drop (32 * j)).take 32) (j * blockSize)).or
        (findEntry name (entries.drop (32 * (j + 1))) ((j + 1) * blockSize)) := by
  generalize hxs : (entries.drop (32 * j)).take 32 = xs
  have hcut : entries.drop (32 * j) = xs ++ entries.drop (32 * (j + 1)) := by
    rw [← hxs, Nat.mul_succ, ← List.drop_drop, List.take_append_drop]
  rw [hcut, findEntry_append]
  by_cases hfull : xs.length = 32
  · have hnext : j * blockSize + dirEntrySize * xs.length = (j + 1) * blockSize := by
      rw [hfull]
      unfold dirEntrySize fileNameMaxLength blockSize
      omega
    rw [hnext]
  · have hnil : entries.drop (32 * (j + 1)) = [] := by
      apply List.drop_eq_nil_of_le
      rw [← hxs, List.length_take, List.length_drop] at hfull
      omega
    simp only [hnil, findEntry]

/-! ## The entries of any directory

Every file whose size is a multiple of 16 is a list of entries, whatever its bytes are. -/

/-- The first `n` entries in the bytes of a directory. -/
def dirEntriesFrom : Nat → File → List DirEntry
  | 0, _ => []
  | n + 1, file => DirEntry.ofBytes file :: dirEntriesFrom n (file.drop dirEntrySize)

/-- An entry has the bytes that it was read from, so that storing it again changes nothing. -/
theorem DirEntry.bytes_ofBytes {buffer : List UInt8} (h : dirEntrySize ≤ buffer.length) :
    (DirEntry.ofBytes buffer).bytes = buffer.take dirEntrySize ∧
    (DirEntry.ofBytes buffer).Sized := by
  obtain ⟨a, b, rest, rfl⟩ : ∃ a b rest, buffer = a :: b :: rest := by
    match buffer, h with
    | a :: b :: rest, _ => exact ⟨a, b, rest, rfl⟩
  refine ⟨?_, ?_⟩
  · have hlow : leByte (DirEntry.ofBytes (a :: b :: rest)).inodeNo.toNat 0 = a :=
      leByte_leU16 _ _ (by omega)
    have hhigh : leByte (DirEntry.ofBytes (a :: b :: rest)).inodeNo.toNat 1 = b :=
      leByte_leU16 _ _ (by omega)
    rw [DirEntry.bytes, hlow, hhigh]
    rfl
  · show (rest.take 14).length = 14
    have hlen : 16 ≤ rest.length + 1 + 1 := h
    rw [List.length_take]
    omega

/-- A file is the bytes of its entries, if its length is a multiple of the size of an entry. By
induction on their number. -/
theorem entriesFile_dirEntriesFrom {n : Nat} {file : File} (h : file.length = dirEntrySize * n) :
    entriesFile (dirEntriesFrom n file) = file ∧ (dirEntriesFrom n file).length = n ∧
      ∀ e ∈ dirEntriesFrom n file, e.Sized := by
  induction n generalizing file with
  | zero =>
    rw [List.eq_nil_of_length_eq_zero h]
    exact ⟨rfl, rfl, fun e he => absurd he List.not_mem_nil⟩
  | succ n ih =>
    rw [Nat.mul_succ] at h
    obtain ⟨hbytes, hsized⟩ :=
      DirEntry.bytes_ofBytes (show dirEntrySize ≤ file.length by omega)
    have hdrop : (file.drop dirEntrySize).length = dirEntrySize * n := by
      rw [List.length_drop]
      omega
    obtain ⟨hrest, hlen, hall⟩ := ih hdrop
    refine ⟨?_, ?_, ?_⟩
    · rw [dirEntriesFrom, entriesFile_cons, hbytes, hrest, List.take_append_drop]
    · rw [dirEntriesFrom, List.length_cons, hlen]
    · intro e he
      rcases List.mem_cons.mp he with rfl | he
      · exact hsized
      · exact hall e he

/-- Entry `i` starts at byte `16 * i`. -/
theorem dirEntriesFrom_eq (n : Nat) (file : File) : dirEntriesFrom n file =
    (List.range n).map fun i => DirEntry.ofBytes (file.drop (dirEntrySize * i)) := by
  induction n generalizing file with
  | zero => rfl
  | succ n ih =>
    rw [dirEntriesFrom, ih, List.range_succ_eq_map, List.map_cons, List.map_map]
    refine congrArg₂ List.cons rfl (List.map_congr_left fun i _ => ?_)
    rw [Function.comp_apply, List.drop_drop, Nat.mul_succ, Nat.add_comm]

theorem entriesFile_read (h : ∀ e ∈ entries, e.Sized) (he : entries[i]? = some e) :
    (entriesFile entries).read (dirEntrySize * i) dirEntrySize = e.bytes := by
  obtain ⟨hi, rfl⟩ := List.getElem?_eq_some_iff.mp he
  rw [File.read, (entriesFile_take_drop h i).2, List.drop_eq_getElem_cons hi, entriesFile_cons]
  exact List.take_left' (DirEntry.length_bytes (h _ (List.getElem_mem hi)))

/-- Entries that a search for the name treats alike. -/
def Alike (name : List UInt8) (e e' : DirEntry) : Prop :=
  e = e' ∨ (e.cname ≠ name ∧ e'.cname ≠ name)

/-- The search finds the same in lists that it treats alike. -/
theorem findEntry_congr {xs ys : List DirEntry} (h : List.Forall₂ (Alike name) xs ys) (i : Nat) :
    findEntry name xs i = findEntry name ys i := by
  induction h generalizing i with
  | nil => rfl
  | cons hxy _ ih =>
    rw [findEntry, findEntry, ih]
    rcases hxy with rfl | ⟨hx, hy⟩
    · rfl
    · rw [if_neg hx, if_neg hy]

namespace BlockCache.Ideal

variable {cache : BlockCache σ} {c : cache.Ideal} {sb : SuperBlock} {base : Finset Nat}
  {inode inode' : Inode} {s t : σ} {Q : Prop}

/-- The inode is a directory with the given entries: its file is the bytes of the entries, one after
the other. -/
structure HoldsEntries (c : cache.Ideal) (sb : SuperBlock) (base : Finset Nat) (inode : Inode)
    (s : σ) (entries : List DirEntry) : Prop where
  rep : c.Represents sb base inode s (entriesFile entries)
  type : inode.entry.type = inodeDirectory
  sized : ∀ e ∈ entries, e.Sized

/-- The size of the directory in the entry of its inode. -/
theorem HoldsEntries.numBytes (h : c.HoldsEntries sb base inode s entries) :
    inode.entry.numBytes.toNat = dirEntrySize * entries.length :=
  h.rep.size.trans (length_entriesFile h.sized)

theorem HoldsEntries.length_lt (h : c.HoldsEntries sb base inode s entries) :
    dirEntrySize * entries.length < 65536 := by
  rw [← h.numBytes]
  exact inode.entry.numBytes.toNat_lt

/-- The outer loop of `inode_lookup` searches the entries from block `j` on. By induction on the
turns to go: 32 entries fill a block, so none of them is cut. -/
theorem HoldsEntries.inodeLookupFrom (h : c.HoldsEntries sb base inode s entries)
    (hname : 0 ∉ name) (hlen : name.length < fileNameMaxLength)
    (n : Nat) {j : Nat} (hturns : dirEntrySize * entries.length < (j + n) * blockSize)
    (hlast : (j + n) * blockSize ≤ dirEntrySize * entries.length + blockSize) :
    ∃ t, inodeLookupFrom cache inode name n (j * blockSize) s =
        .ok (findEntry name (entries.drop (32 * j)) (j * blockSize), t) ∧
      c.HoldsEntries sb base inode t entries := by
  induction n generalizing j s with
  | zero =>
    have hnil : entries.drop (32 * j) = [] := by
      apply List.drop_eq_nil_of_le
      unfold dirEntrySize fileNameMaxLength blockSize at *
      omega
    rw [hnil]
    exact ⟨s, rfl, h⟩
  | succ n ih =>
    -- the entries of this block, and how many bytes they take
    generalize hxs : (entries.drop (32 * j)).take 32 = xs
    have hxlen : min (j * blockSize + blockSize) (dirEntrySize * entries.length) - j * blockSize =
        dirEntrySize * xs.length := by
      rw [← hxs, List.length_take, List.length_drop]
      unfold dirEntrySize fileNameMaxLength blockSize at *
      omega
    have hle : j * blockSize + dirEntrySize * xs.length ≤ dirEntrySize * entries.length := by
      unfold dirEntrySize fileNameMaxLength blockSize at *
      omega
    rw [← length_entriesFile h.sized] at hle
    obtain ⟨s₁, hread, hrep⟩ := h.rep.inodeRead hle
    rw [length_entriesFile h.sized] at hle
    have hbuffer := read_entriesFile_block h.sized j
    rw [hxs] at hbuffer
    have hturn : (dirEntrySize * xs.length + (dirEntrySize - 1)) / dirEntrySize = xs.length := by
      unfold dirEntrySize fileNameMaxLength
      omega
    have hinner : lookupEntries (dirEntrySize * entries.length) (j * blockSize) name (entriesFile xs)
        xs.length 0 = .ok (findEntry name xs (j * blockSize + 0)) := by
      refine lookupEntries_eq hname hlen ?_ rfl (by rwa [Nat.zero_add])
      intro x hx
      rw [← hxs] at hx
      exact h.sized x (List.mem_of_mem_drop (List.mem_of_mem_take hx))
    have hj : j + 1 + n = j + (n + 1) := by omega
    obtain ⟨t, hrest, ht⟩ := ih (j := j + 1) ⟨hrep, h.type, h.sized⟩ (hj ▸ hturns) (hj ▸ hlast)
    simp only [Fs.inodeLookupFrom, h.numBytes, hxlen, hread, ok_bind, hbuffer, hturn, hinner,
      Nat.add_zero]
    rw [findEntry_block, hxs]
    cases findEntry name xs (j * blockSize) with
    | some hit => exact ⟨s₁, rfl, hrep, h.type, h.sized⟩
    | none =>
      rw [← Nat.succ_mul]
      exact ⟨t, hrest, ht⟩

/-- `inode_lookup` finds the first entry with the name, free or not. -/
theorem HoldsEntries.inodeLookup (h : c.HoldsEntries sb base inode s entries) (hname : 0 ∉ name)
    (hlen : name.length < fileNameMaxLength) (index : Option Nat) :
    ∃ t, inodeLookup cache inode name index s =
        .ok (lookupResult index (findEntry name entries 0), t) ∧
      c.HoldsEntries sb base inode t entries := by
  obtain ⟨t, hloop, ht⟩ := h.inodeLookupFrom (j := 0) hname hlen
    (dirEntrySize * entries.length / blockSize + 1) (by unfold blockSize; omega)
    (by unfold blockSize; omega)
  refine ⟨t, ?_, ht⟩
  simp only [Nat.zero_mul, Nat.mul_zero, List.drop_zero] at hloop
  rw [Fs.inodeLookup, kassert_of h.type, ok_bind, h.numBytes, kassert_of (Nat.mul_mod_right _ _),
    ok_bind, kassert_of (by rwa [strlen_eq_length hname]), ok_bind, hloop]
  rfl

/-! ## Inserting and removing

Both go through `inode_write`, so they may need a block, and fail when there is none. -/

/-- Writing an entry replaces the one at its index, or appends one. -/
theorem HoldsEntries.inodeWrite_cases (h : c.HoldsEntries sb base inode s entries)
    (halloc : c.AllocOr base Q) (he : e.Sized) (hi : i ≤ entries.length)
    (hend : dirEntrySize * (i + 1) ≤ 65535) :
    (∃ inode' t, inodeWrite sb cache inode e.bytes (dirEntrySize * i) s = .ok (inode', t) ∧
      c.HoldsEntries sb base inode' t (entries.take i ++ e :: entries.drop (i + 1))) ∨
    (Q ∧ ∃ stop, inodeWrite sb cache inode e.bytes (dirEntrySize * i) s = .error stop) := by
  have hoffset : dirEntrySize * i ≤ (entriesFile entries).length := by
    rw [length_entriesFile h.sized]
    exact Nat.mul_le_mul_left _ hi
  have hend' : dirEntrySize * i + e.bytes.length ≤ 65535 := by
    rwa [DirEntry.length_bytes he, ← Nat.mul_succ]
  rcases h.rep.inodeWrite_cases halloc hoffset hend' with ⟨inode', t, hwrite, hrep⟩ | hfail
  swap
  · exact .inr hfail
  rw [entriesFile_write h.sized he] at hrep
  obtain ⟨-, -, htype, -⟩ := h.rep.loaded.inodeWrite halloc (by omega) hwrite
  refine .inl ⟨inode', t, hwrite, hrep, htype.trans h.type, ?_⟩
  intro x hx
  rcases List.mem_append.mp hx with hx | hx
  · exact h.sized x (List.mem_of_mem_take hx)
  · rcases List.mem_cons.mp hx with rfl | hx
    · exact he
    · exact h.sized x (List.mem_of_mem_drop hx)

/-- The entry that `inode_insert` makes. -/
def newEntry (name : List UInt8) (inodeNo : Nat) : DirEntry :=
  ⟨.ofNat inodeNo, strncpy name fileNameMaxLength⟩

/-- `strncpy` fills the name field. -/
theorem sized_newEntry (name : List UInt8) (inodeNo : Nat) : (newEntry name inodeNo).Sized :=
  length_strncpy _ _

/-- `inode_insert` is a write at the end of the directory. -/
theorem HoldsEntries.inodeInsert_eq (h : c.HoldsEntries sb base inode s entries)
    (name : List UInt8) (inodeNo : Nat) : inodeInsert sb cache inode name inodeNo s = (do
      let (inode, s) ← inodeWrite sb cache inode (newEntry name inodeNo).bytes
        (dirEntrySize * entries.length) s
      return (dirEntrySize * entries.length, inode, s)) := by
  have hmax : dirEntrySize * entries.length < inodeMaxBytes := by
    have := h.length_lt
    rw [inodeMaxBytes_eq]
    omega
  simp only [Fs.inodeInsert, h.numBytes]
  rw [kassert_of h.type, ok_bind, kassert_of (Nat.mul_mod_right _ _), ok_bind, kassert_of hmax,
    ok_bind]
  rfl

/-- `inode_insert` appends an entry. -/
theorem HoldsEntries.inodeInsert_cases (h : c.HoldsEntries sb base inode s entries)
    (halloc : c.AllocOr base Q) (hlen : entries.length + 1 < 4096) (name : List UInt8)
    (inodeNo : Nat) :
    (∃ inode' t, inodeInsert sb cache inode name inodeNo s =
        .ok (dirEntrySize * entries.length, inode', t) ∧
      c.HoldsEntries sb base inode' t (entries ++ [newEntry name inodeNo])) ∨
    (Q ∧ ∃ stop, inodeInsert sb cache inode name inodeNo s = .error stop) := by
  rw [h.inodeInsert_eq]
  rcases h.inodeWrite_cases halloc (sized_newEntry name inodeNo) (Nat.le_refl _)
    (by unfold dirEntrySize fileNameMaxLength; omega) with ⟨inode', t, hwrite, hdir⟩ | ⟨hQ, e, herr⟩
  · rw [List.take_length, List.drop_eq_nil_of_le (Nat.le_succ _)] at hdir
    refine .inl ⟨inode', t, ?_, hdir⟩
    rw [hwrite]
    rfl
  · exact .inr ⟨hQ, e, by rw [herr]; rfl⟩

/-- An insertion that returned has appended an entry. -/
theorem HoldsEntries.of_inodeInsert (h : c.HoldsEntries sb base inode s entries)
    (halloc : c.AllocOr base Q) (hlen : entries.length + 1 < 4096) {inodeNo index : Nat}
    (hcall : inodeInsert sb cache inode name inodeNo s = .ok (index, inode', t)) :
    index = dirEntrySize * entries.length ∧
      c.HoldsEntries sb base inode' t (entries ++ [newEntry name inodeNo]) := by
  rcases h.inodeInsert_cases halloc hlen name inodeNo with ⟨_, _, hok, hdir⟩ | ⟨-, _, herr⟩
  · rw [hok] at hcall
    cases hcall
    exact ⟨rfl, hdir⟩
  · rw [herr] at hcall
    cases hcall

/-- A file is cut off by a smaller `num_bytes`. Its blocks are still allocated, but no call reads
the bytes behind the new size. -/
theorem Represents.setNumBytes {file : File} (h : c.Represents sb base inode s file) {n : Nat}
    (hn : n ≤ file.length) :
    c.Represents sb base (inode.setNumBytes (.ofNat n)) s (file.take n) := by
  have hlen : (file.take n).length = n := by
    rw [List.length_take, Nat.min_eq_left hn]
  refine ⟨h.owns, h.valid, h.inodeNo, h.block, h.type, h.stored, ?_, ?_, ?_⟩
  · have hlt := h.length_lt
    rw [hlen]
    show (UInt16.ofNat n).toNat = n
    rw [UInt16.toNat_ofNat', Nat.mod_eq_of_lt (by omega)]
  · intro p hp
    exact h.mapped p (by omega)
  · intro p hp
    have hp' : p < n := by omega
    rw [List.getD_eq_getElem?_getD, List.getElem?_take_of_lt hp', ← List.getD_eq_getElem?_getD]
    exact h.content p (by omega)

/-- `inode_remove` overwrites an entry with zeros, and drops it if it is the last one. The size in
memory shrinks then, and the block that it was in stays. -/
theorem HoldsEntries.inodeRemove_cases (h : c.HoldsEntries sb base inode s entries)
    (halloc : c.AllocOr base Q) (hmax : dirEntrySize * i < inodeMaxBytes) :
    (∃ inode' t, inodeRemove sb cache inode (dirEntrySize * i) s = .ok (inode', t) ∧
      c.HoldsEntries sb base inode' t (removeEntry entries i)) ∨
    (Q ∧ ∃ stop, inodeRemove sb cache inode (dirEntrySize * i) s = .error stop) := by
  rw [Fs.inodeRemove, kassert_of h.type, ok_bind, kassert_of hmax, ok_bind,
    kassert_of (Nat.mul_mod_right _ _), ok_bind, h.numBytes]
  have hle : dirEntrySize * entries.length ≤ dirEntrySize * i ↔ entries.length ≤ i := by
    unfold dirEntrySize fileNameMaxLength
    omega
  have hlt := h.length_lt
  by_cases hi : entries.length ≤ i
  -- There is no such entry, and nothing happens.
  · rw [if_pos (hle.mpr hi)]
    refine .inl ⟨inode, s, rfl, ?_⟩
    rw [removeEntry, if_neg (by omega), List.set_eq_of_length_le hi]
    exact h
  · rcases h.inodeWrite_cases halloc (e := ⟨0, List.replicate fileNameMaxLength 0⟩)
      List.length_replicate (by omega : i ≤ entries.length)
      (by unfold dirEntrySize fileNameMaxLength at *; omega) with
      ⟨inode', t, hwrite, hdir⟩ | ⟨hQ, stop, herr⟩
    swap
    · refine .inr ⟨hQ, stop, ?_⟩
      rw [if_neg (hle.not.mpr hi)]
      exact congrArg (· >>= _) herr
    have hzero : List.replicate dirEntrySize 0 =
        DirEntry.bytes ⟨0, List.replicate fileNameMaxLength 0⟩ := by decide
    rw [if_neg (hle.not.mpr hi), hzero, hwrite, ok_bind]
    have hset : entries.take i ++ ⟨0, List.replicate fileNameMaxLength 0⟩ :: entries.drop (i + 1) =
        entries.set i ⟨0, List.replicate fileNameMaxLength 0⟩ := by
      rw [List.set_eq_take_append_cons_drop, if_pos (by omega)]
    rw [hset] at hdir
    have hnum := hdir.numBytes
    rw [List.length_set] at hnum
    have hlast : dirEntrySize * i + dirEntrySize = inode'.entry.numBytes.toNat ↔
        i + 1 = entries.length := by
      rw [hnum]
      unfold dirEntrySize fileNameMaxLength
      omega
    -- The last entry is dropped, any other one stays as a record of zeros.
    by_cases hi' : i + 1 = entries.length
    · simp only [if_pos (hlast.mpr hi'), removeEntry, if_pos hi']
      refine .inl ⟨_, t, rfl, ?_, hdir.type, ?_⟩
      · have hcut := hdir.rep.setNumBytes (n := dirEntrySize * i) (by
          rw [length_entriesFile hdir.sized, List.length_set]
          exact Nat.mul_le_mul_left _ (by omega))
        rwa [(entriesFile_take_drop hdir.sized _).1, List.take_set_of_le (Nat.le_refl i)] at hcut
      · intro x hx
        exact h.sized x (List.mem_of_mem_take hx)
    · simp only [if_neg (hlast.not.mpr hi'), removeEntry, if_neg hi']
      exact .inl ⟨_, t, rfl, hdir⟩

end BlockCache.Ideal

end KernelAarch64.Fs
