import KernelAarch64.Fs.Inode.Directory
import KernelAarch64.Fs.Inode.Structs

/-!
# Directories over structs

`inode_insert` and `inode_remove` do what they do over plain content if their writes are harmless
(`Tracks.inodeInsert`, `Tracks.inodeRemove`).

`inode_lookup` takes the members of a struct before `data` for entries, too: the first four of each
block lie in them, and of the fifth the low byte of the inode number. It finds what it finds over
plain content if none of these has the name (`Tracks.inodeLookup`): then the entries of a block are
searched alike on both sides (`alike_of_structs`), and the loop goes on to the next block on both.

The last three lemmas follow the loops of `inode_lookup`: `Tracks.lookup_block` for the entries of
one block, `Tracks.inodeLookupFrom` for the blocks from one on, and `Tracks.inodeLookup` for the
call. In each of them the entries that the casts read differ from those of the plain content only
where neither has the name (`alike_of_structs`), so that the two searches stop at the same entry.
-/

namespace KernelAarch64.Fs

open KernelAarch64.Lib

variable {σ : Type} {cache : BlockCache σ} {c : cache.Structs} {sb : SuperBlock} {base : Finset Nat}
  {inode : Inode} {s : σ} {g : σ × Disk}

namespace BlockCache

/-- The write of `inode_insert` is harmless: the entry goes to the end of the directory, and may hit
the header of the block that is there. -/
def HarmlessInsert (sb : SuperBlock) (cache : BlockCache σ) (inode : Inode) (name : List UInt8)
    (inodeNo : Nat) (s : σ) : Prop :=
  cache.Harmless sb inode (Ideal.newEntry name inodeNo).bytes inode.entry.numBytes.toNat s

/-- The write of `inode_remove` is harmless, or there is none: an index behind the last entry is
rejected or ignored. -/
def HarmlessRemove (sb : SuperBlock) (cache : BlockCache σ) (inode : Inode) (index : Nat) (s : σ) :
    Prop :=
  index < inode.entry.numBytes.toNat →
    cache.Harmless sb inode (List.replicate dirEntrySize 0) index s

namespace Structs

/-- `inode_insert` with a harmless write returns the same index and the same inode over structs and
over plain content, and keeps the two alike. -/
theorem Tracks.inodeInsert (h : c.Tracks sb base inode s g) {name : List UInt8} {inodeNo : Nat}
    (hharmless : cache.HarmlessInsert sb inode name inodeNo s) :
    Follows .fault False
      (fun r r' => r.1 = r'.1 ∧ r.2.1 = r'.2.1 ∧ c.Tracks sb base r.2.1 r.2.2 r'.2.2)
      (Fs.inodeInsert sb cache inode name inodeNo s)
      (Fs.inodeInsert sb c.contents inode name inodeNo g) := by
  unfold Fs.inodeInsert
  refine (Follows.refl Stop.fault False _).bind fun _ _ _ => ?_
  refine (Follows.refl Stop.fault False _).bind fun _ _ _ => ?_
  refine (Follows.refl Stop.fault False _).bind fun _ _ _ => ?_
  refine (h.inodeWrite hharmless).bind ?_
  rintro ⟨inode', t⟩ ⟨_, g'⟩ ⟨rfl, ht⟩
  exact .ok ⟨rfl, rfl, ht⟩

/-- `inode_remove` with a harmless write leaves the same directory over structs and over plain
content. -/
theorem Tracks.inodeRemove (h : c.Tracks sb base inode s g) {index : Nat}
    (hharmless : cache.HarmlessRemove sb inode index s) :
    Follows .fault False (fun r r' => r.1 = r'.1 ∧ c.Tracks sb base r.1 r.2 r'.2)
      (Fs.inodeRemove sb cache inode index s) (Fs.inodeRemove sb c.contents inode index g) := by
  unfold Fs.inodeRemove
  refine (Follows.refl Stop.fault False _).bind fun _ _ _ => ?_
  refine (Follows.refl Stop.fault False _).bind fun _ _ _ => ?_
  refine (Follows.refl Stop.fault False _).bind fun _ _ _ => ?_
  split
  · exact .ok ⟨rfl, h⟩
  · next hlt =>
    refine (h.inodeWrite (hharmless (Nat.lt_of_not_le hlt))).bind ?_
    rintro ⟨inode', t⟩ ⟨_, g'⟩ ⟨rfl, ht⟩
    dsimp only at ht ⊢
    split
    · exact .ok ⟨rfl, ht.sim, ht.loaded.setNumBytes _⟩
    · exact .ok ⟨rfl, ht⟩

end Structs

end BlockCache

/-! ## Entries in the header of a struct

Entries have 16 bytes and the header 65, so four entries of a block are made of header bytes alone,
and the fifth begins with the last byte of the header. -/

/-- Entry `i` of a block, where it is made of the members before `data`. -/
def headerEntry (head : Nat → UInt8) (i : Nat) : DirEntry :=
  DirEntry.ofBytes ((List.range dirEntrySize).map fun j => head (dirEntrySize * i + j))

/-- The entries of a block from here on have no byte in the header. -/
def headerEnd : Nat := dirEntrySize * (dataOffset / dirEntrySize + 1)

example : headerEnd = 80 := by decide

/-- An entry is in its first 16 bytes. -/
theorem DirEntry.ofBytes_take (buffer : List UInt8) :
    DirEntry.ofBytes (buffer.take dirEntrySize) = DirEntry.ofBytes buffer := by
  apply DirEntry.ext
  · show leU16 (fun k => (buffer.take dirEntrySize).getD k 0) 0 = leU16 (fun k => buffer.getD k 0) 0
    refine leU16_congr fun k hk => ?_
    have hlt : 0 + k < dirEntrySize := by
      unfold dirEntrySize
      omega
    rw [List.getD_eq_getElem?_getD, List.getElem?_take_of_lt hlt, ← List.getD_eq_getElem?_getD]
  · show ((buffer.take dirEntrySize).drop 2).take fileNameMaxLength = _
    rw [List.drop_take, List.take_take]
    rfl

/-- A part of a part of a block. -/
theorem BlockData.take_drop_slice (d : BlockData) {q n len : Nat} (h : q + n ≤ len) :
    ((d.slice 0 len).drop q).take n = d.slice q n := by
  apply List.ext_getElem
  · simp
    omega
  · intro k hk hk'
    simp [BlockData.slice]

/-- A part of a block depends on its bytes only. -/
theorem BlockData.slice_congr {d d' : BlockData} {q n : Nat}
    (h : ∀ k, q ≤ k → k < q + n → d.byte k = d'.byte k) : d.slice q n = d'.slice q n := by
  apply List.map_congr_left
  intro j hj
  exact h _ (Nat.le_add_right q j) (Nat.add_lt_add_left (List.mem_range.mp hj) q)

/-- The name of an entry lies behind its inode number. -/
theorem name_ofBytes_slice (d : BlockData) (q : Nat) :
    (DirEntry.ofBytes (d.slice q dirEntrySize)).name = d.slice (q + 2) fileNameMaxLength := by
  apply List.ext_getElem
  · simp [DirEntry.ofBytes]
  · intro k hk hk'
    simp [DirEntry.ofBytes, BlockData.slice, Nat.add_assoc]

/-- An entry of a struct and the one of plain content in its place are searched alike, if the one of
the content does not have the name where it touches the header, and no entry in the header has it.
-/
theorem alike_of_structs {name : List UInt8} {head : Nat → UInt8} {d d' : BlockData} {q : Nat}
    (hdata : ∀ k, dataOffset ≤ k → k < blockSize → d'.byte k = d.byte (k - dataOffset))
    (hq : q % dirEntrySize = 0) (hlt : q + dirEntrySize ≤ blockSize)
    (hheads : ∀ i < dataOffset / dirEntrySize, (headerEntry head i).cname ≠ name)
    (hover : q < headerEnd → (DirEntry.ofBytes (d'.slice q dirEntrySize)).cname ≠ name) :
    Alike name (DirEntry.ofBytes ((structBytes head d).slice q dirEntrySize))
      (DirEntry.ofBytes (d'.slice q dirEntrySize)) := by
  have hbyte : ∀ k, dataOffset ≤ k → k < blockSize → (structBytes head d).byte k = d'.byte k := by
    intro k hk hlt
    rw [byte_structBytes hk hlt, hdata k hk hlt]
  by_cases hend : headerEnd ≤ q
  · -- the entry lies in `data`
    refine .inl (congrArg DirEntry.ofBytes (BlockData.slice_congr fun k hk hlt' => ?_))
    exact hbyte k ((show dataOffset ≤ headerEnd by decide).trans (hend.trans hk)) (hlt'.trans_le hlt)
  refine .inr ⟨?_, hover (Nat.lt_of_not_le hend)⟩
  have hcases : q = 64 ∨ q / dirEntrySize < dataOffset / dirEntrySize := by
    unfold headerEnd dataOffset dirEntrySize fileNameMaxLength at *
    omega
  rcases hcases with rfl | hhead
  · -- the name lies in `data`
    have hname : (DirEntry.ofBytes ((structBytes head d).slice 64 dirEntrySize)).name =
        (DirEntry.ofBytes (d'.slice 64 dirEntrySize)).name := by
      rw [name_ofBytes_slice, name_ofBytes_slice]
      refine BlockData.slice_congr fun k hk hlt' => hbyte k ?_ ?_
      · unfold dataOffset
        omega
      · unfold fileNameMaxLength at hlt'
        unfold blockSize
        omega
    rw [DirEntry.cname, hname]
    exact hover (by decide)
  · -- the entry lies in the header
    have hentry : (structBytes head d).slice q dirEntrySize =
        (List.range dirEntrySize).map fun j => head (dirEntrySize * (q / dirEntrySize) + j) := by
      refine List.map_congr_left fun j hj => ?_
      have hj : j < dirEntrySize := List.mem_range.mp hj
      have hplace : dirEntrySize * (q / dirEntrySize) + j = q + j := by
        have := Nat.div_add_mod q dirEntrySize
        omega
      rw [hplace]
      refine byte_structBytes_head ?_
      unfold dataOffset dirEntrySize fileNameMaxLength at *
      omega
    rw [hentry]
    exact hheads _ hhead

/-! ## Looking up a name

A lookup only reads, and it reads whole blocks. It never meets the guard; what has to be shown is
that the header does not look like an entry with the name. -/

namespace BlockCache

/-- The entry that a directory over plain content has at index `dirEntrySize * i`: the 16 bytes
there, which lie in one block. -/
theorem Ideal.HoldsEntries.ofBytes {cache : BlockCache σ} {c : cache.Ideal} {s : σ}
    {entries : List DirEntry} (h : c.HoldsEntries sb base inode s entries) {i : Nat} {e : DirEntry}
    (he : entries[i]? = some e) :
    DirEntry.ofBytes ((c.mem s (inode.entry.addr (c.mem s) (dirEntrySize * i / blockSize))).slice
      (dirEntrySize * i % blockSize) dirEntrySize) = e := by
  have hi : i < entries.length := (List.getElem?_eq_some_iff.mp he).1
  have hsized : e.Sized := h.sized e (List.mem_of_getElem? he)
  have hbytes : (c.mem s (inode.entry.addr (c.mem s) (dirEntrySize * i / blockSize))).slice
      (dirEntrySize * i % blockSize) dirEntrySize = e.bytes := by
    rw [← entriesFile_read h.sized he, File.read]
    have hlen := length_entriesFile h.sized
    apply List.ext_getElem
    · rw [BlockData.length_slice, List.length_take, List.length_drop, hlen]
      unfold dirEntrySize fileNameMaxLength
      omega
    · intro k hk hk'
      rw [BlockData.length_slice] at hk
      have hp : dirEntrySize * i + k < (entriesFile entries).length := by
        rw [hlen]
        unfold dirEntrySize fileNameMaxLength at *
        omega
      have hcontent := h.rep.content _ hp
      have hdiv : (dirEntrySize * i + k) / blockSize = dirEntrySize * i / blockSize := by
        unfold dirEntrySize fileNameMaxLength blockSize at *
        omega
      have hmod : (dirEntrySize * i + k) % blockSize = dirEntrySize * i % blockSize + k := by
        unfold dirEntrySize fileNameMaxLength blockSize at *
        omega
      rw [InodeEntry.fileByte, hdiv, hmod, List.getD_eq_getElem?_getD, List.getElem?_eq_getElem hp,
        Option.getD_some] at hcontent
      rw [List.getElem_take, List.getElem_drop, ← hcontent]
      simp [BlockData.slice]
  rw [hbytes, ← List.append_nil e.bytes]
  exact DirEntry.ofBytes_append hsized []

namespace Structs

/-- A search for the name does not stop at a header: the directory needs no indirect block, no entry
in the header of one of its blocks has the name, whatever the header holds, and no entry of the
directory that touches a header has it. -/
structure HeadersApart (c : cache.Structs) (inode : Inode) (entries : List DirEntry)
    (name : List UInt8) : Prop where
  direct : inode.entry.numBytes.toNat < inodeNumDirect * blockSize
  heads : ∀ k : Fin inodeNumDirect, k * blockSize < inode.entry.numBytes.toNat →
    ∀ s, ∀ i < dataOffset / dirEntrySize,
      (headerEntry (c.head s (inode.entry.addrs k).toNat) i).cname ≠ name
  entries : ∀ i e, entries[i]? = some e → dirEntrySize * i % blockSize < headerEnd → e.cname ≠ name

/-- A data block of a file is neither the block that stores its inode nor its indirect block. -/
theorem Tracks.block_apart (h : c.Tracks sb base inode s g) {k : Nat} (hk : k < inodeNumDirect)
    (hne : inode.entry.addrs ⟨k, hk⟩ ≠ 0) :
    (inode.entry.addrs ⟨k, hk⟩).toNat ≠ toBlockNo sb inode.inodeNo ∧
      (inode.entry.addrs ⟨k, hk⟩).toNat ≠ inode.entry.indirect.toNat := by
  have haddr : inode.entry.addr (c.contentsIdeal.mem g) k = (inode.entry.addrs ⟨k, hk⟩).toNat :=
    InodeEntry.addr_direct hk
  have hmax : k < inodeMaxBlocks := Nat.lt_of_lt_of_le hk (Nat.le_add_right _ _)
  have hne' : inode.entry.addr (c.contentsIdeal.mem g) k ≠ 0 := by
    rwa [haddr, ne_eq, toNat_eq_zero]
  rw [← haddr]
  refine ⟨fun heq => ?_, h.loaded.owns.addr_ne_indirect hmax hne'⟩
  exact h.loaded.owns.addr_notMem_base hmax hne' (heq ▸ h.loaded.block)

/-- `inode_read` within one block: it copies what the cast shows of the struct at that time, and
changes no content. -/
theorem inodeRead_block (c : cache.Structs) {k len : Nat} (hk : k < inodeNumDirect)
    (hlen : len ≤ blockSize) (hle : k * blockSize + len ≤ inode.entry.numBytes.toNat)
    (haddr : 0 < len → inode.entry.addrs ⟨k, hk⟩ ≠ 0) (s : σ) :
    ∃ u t, inodeRead cache inode (k * blockSize) len s =
        .ok ((c.castMem u (inode.entry.addrs ⟨k, hk⟩).toNat).slice 0 len, t) ∧
      c.mem u = c.mem s ∧ c.mem t = c.mem s := by
  have hsize := inode.entry.numBytes.toNat_lt
  have hmod : (k * blockSize + len) % 2 ^ 64 = k * blockSize + len := Nat.mod_eq_of_lt (by omega)
  have hround : roundDown (k * blockSize) = k * blockSize := by
    unfold roundDown
    rw [Nat.mul_div_cancel _ (by decide)]
  have hoffset : k * blockSize ≤ inode.entry.numBytes.toNat := (Nat.le_add_right _ _).trans hle
  unfold Fs.inodeRead
  simp only [hmod, hround]
  rw [kassert_of hoffset, ok_bind, kassert_of hle, ok_bind, kassert_of (Nat.le_add_right _ _), ok_bind]
  rcases Nat.eq_zero_or_pos len with rfl | hpos
  · -- nothing is read
    have hturns : (k * blockSize + 0 - k * blockSize + (blockSize - 1)) / blockSize = 0 := by
      unfold blockSize
      omega
    rw [hturns]
    exact ⟨s, s, rfl, rfl, rfl⟩
  · have hturns : (k * blockSize + len - k * blockSize + (blockSize - 1)) / blockSize = 1 := by
      unfold blockSize at hlen ⊢
      omega
    have hmax : k * blockSize < inodeMaxBytes := by
      unfold inodeMaxBytes inodeMaxBlocks
      exact Nat.mul_lt_mul_of_pos_right (Nat.lt_of_lt_of_le hk (Nat.le_add_right _ _)) (by decide)
    have hdiv : k * blockSize / blockSize = k := Nat.mul_div_cancel _ (by decide)
    have hmap : inodeMap2 cache inode (k * blockSize) s =
        .ok ((inode.entry.addrs ⟨k, hk⟩).toNat, s) := by
      unfold inodeMap2
      rw [kassert_of hmax, ok_bind]
      simp only [hdiv, dif_pos hk]
      rw [kassert_of (haddr hpos), ok_bind]
      rfl
    -- One turn: the direct block is acquired, copied from and released.
    obtain ⟨u, hacq, hmem, -⟩ := c.acquire (inode.entry.addrs ⟨k, hk⟩).toNat s
    obtain ⟨t, hrel, hmem', -⟩ := c.release (inode.entry.addrs ⟨k, hk⟩).toNat u
    have hstart : max (k * blockSize) (k * blockSize) - k * blockSize = 0 := by
      rw [Nat.max_self, Nat.sub_self]
    have hterm : min (k * blockSize + blockSize) (k * blockSize + len) - k * blockSize = len := by
      rw [Nat.min_eq_right (Nat.add_le_add_left hlen _), Nat.add_sub_cancel_left]
    refine ⟨u, t, ?_, hmem, hmem'.trans hmem⟩
    rw [hturns]
    simp only [inodeReadFrom, hmap, ok_bind, hacq, c.bytes, hrel, hstart, hterm, Nat.sub_zero]
    show Except.ok (_ ++ [], t) = _
    rw [List.append_nil]
    rfl

section Lookup

variable {entries : List DirEntry} {name : List UInt8}

/-- `inode_lookup` searches the entries of one block as over plain content. The header in front of
`data` is searched along, but no entry that it makes up has the name. -/
theorem Tracks.lookup_block (h : c.Tracks sb base inode s g)
    (hdir : c.contentsIdeal.HoldsEntries sb base inode g entries) (hname : 0 ∉ name)
    (hlen : name.length < fileNameMaxLength)
    (hapart : c.HeadersApart inode entries name) {j : Nat} (hj : j < inodeNumDirect)
    {xs : List DirEntry}
    (hxs : (entries.drop (32 * j)).take 32 = xs) {u : σ} (hu : c.mem u = c.mem s)
    (hle : j * blockSize + dirEntrySize * xs.length ≤ dirEntrySize * entries.length) :
    ∃ buffer t, Fs.inodeRead cache inode (j * blockSize) (dirEntrySize * xs.length) u =
        .ok (buffer, t) ∧ c.mem t = c.mem s ∧
      lookupEntries (dirEntrySize * entries.length) (j * blockSize) name buffer xs.length 0 =
        .ok (findEntry name xs (j * blockSize)) := by
  have hcount : xs.length ≤ 32 := by
    rw [← hxs, List.length_take]
    exact Nat.min_le_left _ _
  have hsmall : dirEntrySize * xs.length ≤ blockSize := by
    unfold dirEntrySize fileNameMaxLength blockSize
    omega
  have hmapped : 0 < dirEntrySize * xs.length → inode.entry.addrs ⟨j, hj⟩ ≠ 0 := by
    intro hpos hzero
    have hp : j * blockSize < (entriesFile entries).length := by
      rw [length_entriesFile hdir.sized]
      omega
    have hne := hdir.rep.mapped _ hp
    rw [Nat.mul_div_cancel _ (by decide), InodeEntry.addr_direct hj, hzero] at hne
    exact hne rfl
  obtain ⟨v, t, hread, hv, ht⟩ := c.inodeRead_block hj hsmall (by rwa [hdir.numBytes]) hmapped u
  generalize hbuffer : (c.castMem v (inode.entry.addrs ⟨j, hj⟩).toNat).slice 0
    (dirEntrySize * xs.length) = buffer at hread
  have hlength : buffer.length = dirEntrySize * xs.length := by
    rw [← hbuffer, BlockData.length_slice]
  obtain ⟨hfile, hys, hsized⟩ := entriesFile_dirEntriesFrom hlength
  have hinner : lookupEntries (dirEntrySize * entries.length) (j * blockSize) name buffer
      (dirEntriesFrom xs.length buffer).length 0 =
        .ok (findEntry name (dirEntriesFrom xs.length buffer) (j * blockSize + 0)) :=
    lookupEntries_eq hname hlen hsized hfile.symm (by rwa [hys, Nat.zero_add])
  rw [hys, Nat.add_zero] at hinner
  refine ⟨buffer, t, hread, ht.trans hu, hinner.trans (congrArg Except.ok ?_)⟩
  refine findEntry_congr (List.forall₂_iff_get.mpr ⟨hys, fun i hi hi' => ?_⟩) _
  -- entry `i` of the block on both sides
  have hplace : dirEntrySize * (32 * j + i) = j * blockSize + dirEntrySize * i := by
    unfold dirEntrySize fileNameMaxLength blockSize
    omega
  have hin : dirEntrySize * i + dirEntrySize ≤ dirEntrySize * xs.length := by
    rw [← Nat.mul_succ]
    exact Nat.mul_le_mul_left _ hi'
  have hdiv : dirEntrySize * (32 * j + i) / blockSize = j := by
    rw [hplace]
    unfold dirEntrySize fileNameMaxLength blockSize at *
    omega
  have hmod : dirEntrySize * (32 * j + i) % blockSize = dirEntrySize * i := by
    rw [hplace]
    unfold dirEntrySize fileNameMaxLength blockSize at *
    omega
  have hentry : entries[32 * j + i]? = some (xs.get ⟨i, hi'⟩) := by
    subst hxs
    simp
  have hcontent := hdir.ofBytes hentry
  rw [hdiv, hmod, InodeEntry.addr_direct hj] at hcontent
  have hread : (dirEntriesFrom xs.length buffer).get ⟨i, hi⟩ =
      DirEntry.ofBytes ((c.castMem v (inode.entry.addrs ⟨j, hj⟩).toNat).slice (dirEntrySize * i)
        dirEntrySize) := by
    rw [← BlockData.take_drop_slice _ hin, hbuffer, DirEntry.ofBytes_take]
    simp [dirEntriesFrom_eq]
  have hne : inode.entry.addrs ⟨j, hj⟩ ≠ 0 := hmapped (by unfold dirEntrySize at *; omega)
  rw [hread, ← hcontent]
  refine alike_of_structs ?_ (Nat.mul_mod_right _ _) (hin.trans hsmall) (hapart.heads ⟨j, hj⟩ ?_ v) ?_
  · intro k hk hlt
    rw [hv, hu]
    obtain ⟨hI, hJ⟩ := h.block_apart hj hne
    exact h.sim.files _ hI hJ k hk hlt
  · rw [hdir.numBytes]
    unfold dirEntrySize at *
    show j * blockSize < _
    omega
  · intro hlt
    rw [← hmod] at hlt
    have hother := hapart.entries _ _ hentry hlt
    rwa [← hcontent] at hother

/-- The loop of `inode_lookup` from block `j` on finds what it finds over plain content. By
induction on the turns to go, one block a turn. -/
theorem Tracks.inodeLookupFrom (h : c.Tracks sb base inode s g)
    (hdir : c.contentsIdeal.HoldsEntries sb base inode g entries) (hname : 0 ∉ name)
    (hlen : name.length < fileNameMaxLength)
    (hapart : c.HeadersApart inode entries name) (n : Nat) {j : Nat}
    (hturns : dirEntrySize * entries.length < (j + n) * blockSize)
    (hlast : (j + n) * blockSize ≤ dirEntrySize * entries.length + blockSize) {u : σ}
    (hu : c.mem u = c.mem s) :
    ∃ t, Fs.inodeLookupFrom cache inode name n (j * blockSize) u =
      .ok (findEntry name (entries.drop (32 * j)) (j * blockSize), t) := by
  induction n generalizing j u with
  | zero =>
    -- All entries are in the blocks before.
    have hnil : entries.drop (32 * j) = [] := by
      apply List.drop_eq_nil_of_le
      unfold dirEntrySize fileNameMaxLength blockSize at *
      omega
    rw [hnil]
    exact ⟨u, rfl⟩
  | succ n ih =>
    generalize hxs : (entries.drop (32 * j)).take 32 = xs
    have hxlen : min (j * blockSize + blockSize) (dirEntrySize * entries.length) - j * blockSize =
        dirEntrySize * xs.length := by
      rw [← hxs, List.length_take, List.length_drop]
      unfold dirEntrySize fileNameMaxLength blockSize at *
      omega
    have hle : j * blockSize + dirEntrySize * xs.length ≤ dirEntrySize * entries.length := by
      unfold dirEntrySize fileNameMaxLength blockSize at *
      omega
    have hj : j < inodeNumDirect := by
      have hdirect := hapart.direct
      rw [hdir.numBytes] at hdirect
      unfold dirEntrySize fileNameMaxLength inodeNumDirect blockSize at *
      omega
    -- The block is read and searched, and the other blocks are searched if nothing is found.
    obtain ⟨buffer, v, hread, hv, hinner⟩ :=
      h.lookup_block hdir hname hlen hapart hj hxs hu hle
    have hturn : (dirEntrySize * xs.length + (dirEntrySize - 1)) / dirEntrySize = xs.length := by
      unfold dirEntrySize fileNameMaxLength
      omega
    have hnext : j + 1 + n = j + (n + 1) := by omega
    obtain ⟨t, hrest⟩ := ih (j := j + 1) (hnext ▸ hturns) (hnext ▸ hlast) hv
    simp only [Fs.inodeLookupFrom, hdir.numBytes, hxlen, hread, ok_bind, hturn, hinner]
    rw [findEntry_block, hxs]
    cases findEntry name xs (j * blockSize) with
    | some hit => exact ⟨v, rfl⟩
    | none =>
      rw [← Nat.succ_mul]
      exact ⟨t, hrest⟩

/-- `inode_lookup` finds the first entry with the name, as over plain content. -/
theorem Tracks.inodeLookup (h : c.Tracks sb base inode s g)
    (hdir : c.contentsIdeal.HoldsEntries sb base inode g entries) (hname : 0 ∉ name)
    (hlen : name.length < fileNameMaxLength) (hapart : c.HeadersApart inode entries name) :
    (∃ t, Fs.inodeLookupFrom cache inode name (inode.entry.numBytes.toNat / blockSize + 1) 0 s =
      .ok (findEntry name entries 0, t)) ∧
    ∀ index, ∃ t, Fs.inodeLookup cache inode name index s =
      .ok (lookupResult index (findEntry name entries 0), t) := by
  obtain ⟨t, hloop⟩ := h.inodeLookupFrom (j := 0) hdir hname hlen hapart
    (dirEntrySize * entries.length / blockSize + 1) (by unfold blockSize; omega)
    (by unfold blockSize; omega) rfl
  simp only [Nat.zero_mul, Nat.mul_zero, List.drop_zero] at hloop
  refine ⟨⟨t, by rw [hdir.numBytes]; exact hloop⟩, fun index => ⟨t, ?_⟩⟩
  rw [Fs.inodeLookup, kassert_of hdir.type, ok_bind, hdir.numBytes,
    kassert_of (Nat.mul_mod_right _ _), ok_bind, kassert_of (by rwa [strlen_eq_length hname]), ok_bind,
    hloop]
  rfl

end Lookup

end Structs

end BlockCache

end KernelAarch64.Fs
