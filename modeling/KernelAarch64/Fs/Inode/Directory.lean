import KernelAarch64.Fs.Inode.DirEntry

/-!
# Directories as maps

The abstract directory is the list of its slots, each with a name and an inode number; the name of a
removed entry is empty. Over it, a directory is the set of entries that were inserted and not
removed since (`DirRun`).

The main result is `directory_is_map`. A run of calls keeps `HasEntries`, which says that the slots
of the directory are those of the live entries (`Lives`); each call has a lemma
(`HasEntries.lookup`, `HasEntries.insert`, `HasEntries.remove`), and `HasEntries.run` is the
induction. The bytes of a directory are treated in `Fs.Inode.DirEntry`; here a directory is a list
of slots.
-/

namespace KernelAarch64.Fs

open KernelAarch64.Lib

variable {σ : Type}

/-! ## Slots of a directory

With names that fit, a slot and its entry are the same thing, and the functions on entries carry
over. -/

/-- The name and the inode number of a slot. The name of a removed entry is empty. -/
abbrev DirSlot := List UInt8 × UInt16

/-- The `DirEntry` of a slot. -/
def DirSlot.entry (x : DirSlot) : DirEntry := ⟨x.2, strncpy x.1 fileNameMaxLength⟩

/-- The content of a directory. -/
def dirFile (slots : List DirSlot) : File := slots.flatMap fun x => x.entry.bytes

/-- The names that a slot may have: no terminator, and room for one behind them. -/
def DirSlot.Named (x : DirSlot) : Prop := 0 ∉ x.1 ∧ x.1.length < fileNameMaxLength

/-- The first slot with the name; `i` is the index of the first slot of the list. -/
def findSlot (name : List UInt8) : List DirSlot → Nat → Option (Nat × UInt16)
  | [], _ => none
  | x :: slots, i => if x.1 = name then some (i, x.2) else findSlot name slots (i + dirEntrySize)

/-- What `inode_remove` does to the slots. -/
def removeSlot (slots : List DirSlot) (i : Nat) : List DirSlot :=
  if i + 1 = slots.length then slots.take i else slots.set i ([], 0)

variable {slots : List DirSlot} {name : List UInt8} {i : Nat}

theorem DirSlot.length_bytes (x : DirSlot) : x.entry.bytes.length = dirEntrySize :=
  DirEntry.length_bytes (length_strncpy _ _)

/-- The name field of a slot has 14 bytes. -/
theorem DirSlot.sized_entry (x : DirSlot) : x.entry.Sized := length_strncpy _ _

theorem sized_slots (slots : List DirSlot) : ∀ e ∈ slots.map DirSlot.entry, e.Sized := by
  intro e he
  obtain ⟨x, -, rfl⟩ := List.mem_map.mp he
  exact x.sized_entry

/-- The slots of a directory as entries. -/
theorem dirFile_eq (slots : List DirSlot) : dirFile slots = entriesFile (slots.map DirSlot.entry) :=
  (List.flatMap_map ..).symm

theorem length_dirFile (slots : List DirSlot) :
    (dirFile slots).length = dirEntrySize * slots.length := by
  rw [dirFile_eq, length_entriesFile (sized_slots slots), List.length_map]

theorem dirFile_read {x : DirSlot} (hx : slots[i]? = some x) :
    (dirFile slots).read (dirEntrySize * i) dirEntrySize = x.entry.bytes := by
  rw [dirFile_eq]
  refine entriesFile_read (sized_slots slots) ?_
  rw [List.getElem?_map, hx]
  rfl

/-- A name that fits is read back as it was stored. -/
theorem DirSlot.Named.cname {x : DirSlot} (hx : x.Named) : x.entry.cname = x.1 :=
  takeWhile_strncpy hx.1 (Nat.le_of_lt hx.2)

/-- The first slot with a name is the first entry with this name. -/
theorem findEntry_map (h : ∀ x ∈ slots, x.Named) (i : Nat) :
    findEntry name (slots.map DirSlot.entry) i = findSlot name slots i := by
  induction slots generalizing i with
  | nil => rfl
  | cons x slots ih =>
    rw [List.map_cons, findEntry, findSlot, (h x List.mem_cons_self).cname,
      ih fun y hy => h y (List.mem_cons_of_mem x hy)]
    rfl

/-- Removing from the slots is removing from the entries. -/
theorem map_removeSlot (slots : List DirSlot) (i : Nat) :
    (removeSlot slots i).map DirSlot.entry = removeEntry (slots.map DirSlot.entry) i := by
  rw [removeSlot, removeEntry, List.length_map]
  split
  · rw [List.map_take]
  · rw [List.map_set]
    rfl

/-- The names still fit after a removal. -/
theorem named_removeSlot (h : ∀ x ∈ slots, x.Named) (i : Nat) :
    ∀ x ∈ removeSlot slots i, x.Named := by
  intro x hx
  unfold removeSlot at hx
  split at hx
  · exact h x (List.mem_of_mem_take hx)
  · rcases List.mem_or_eq_of_mem_set hx with hx | rfl
    · exact h x hx
    · exact ⟨List.not_mem_nil, by decide⟩

namespace BlockCache.Ideal

variable {cache : BlockCache σ} {c : cache.Ideal} {sb : SuperBlock} {base : Finset Nat}
  {inode inode' : Inode} {s t : σ}

/-- The inode is a directory with the given slots. A slot has a name and an inode number, and the
empty name stands for one that was removed. -/
structure IsDirectory (c : cache.Ideal) (sb : SuperBlock) (base : Finset Nat) (inode : Inode)
    (s : σ) (slots : List DirSlot) : Prop where
  rep : c.Represents sb base inode s (dirFile slots)
  type : inode.entry.type = inodeDirectory
  names : ∀ x ∈ slots, x.Named

/-- The size in the entry of the inode. -/
theorem IsDirectory.numBytes (h : c.IsDirectory sb base inode s slots) :
    inode.entry.numBytes.toNat = dirEntrySize * slots.length :=
  h.rep.size.trans (length_dirFile slots)

/-- A directory with slots is one with entries. -/
theorem IsDirectory.holds (h : c.IsDirectory sb base inode s slots) :
    c.HoldsEntries sb base inode s (slots.map DirSlot.entry) :=
  ⟨by rw [← dirFile_eq]; exact h.rep, h.type, sized_slots slots⟩

/-- And the other way around, if the names fit. -/
theorem HoldsEntries.isDirectory {entries : List DirEntry} (h : c.HoldsEntries sb base inode s entries)
    (heq : entries = slots.map DirSlot.entry) (hnames : ∀ x ∈ slots, x.Named) :
    c.IsDirectory sb base inode s slots :=
  ⟨by rw [dirFile_eq, ← heq]; exact h.rep, h.type, hnames⟩

/-- `inode_lookup` finds the first slot with the name. -/
theorem IsDirectory.inodeLookup (h : c.IsDirectory sb base inode s slots) (hname : 0 ∉ name)
    (hlen : name.length < fileNameMaxLength) (index : Option Nat) :
    ∃ t, inodeLookup cache inode name index s =
        .ok (lookupResult index (findSlot name slots 0), t) ∧
      c.IsDirectory sb base inode t slots := by
  obtain ⟨t, hlookup, ht⟩ := h.holds.inodeLookup hname hlen index
  rw [findEntry_map h.names] at hlookup
  exact ⟨t, hlookup, ht.isDirectory rfl h.names⟩

/-- `inode_insert` appends a slot. -/
theorem IsDirectory.inodeInsert (h : c.IsDirectory sb base inode s slots)
    (hroom : numSlots ≤ (c.pool \ base).card) (hname : 0 ∉ name)
    (hlen : name.length < fileNameMaxLength) (hslots : slots.length + 1 < 4096) (inodeNo : Nat) :
    ∃ inode' t, inodeInsert sb cache inode name inodeNo s =
        .ok (dirEntrySize * slots.length, inode', t) ∧
      c.IsDirectory sb base inode' t (slots ++ [(name, .ofNat inodeNo)]) := by
  obtain ⟨inode', t, hinsert, ht⟩ := (h.holds.inodeInsert_cases (allocOr_of_room hroom)
    (by rwa [List.length_map]) name inodeNo).resolve_right fun hfail => hfail.1
  rw [List.length_map] at hinsert
  refine ⟨inode', t, hinsert, ht.isDirectory (by rw [List.map_append]; rfl) ?_⟩
  intro x hx
  rcases List.mem_append.mp hx with hx | hx
  · exact h.names x hx
  · rw [List.mem_singleton.mp hx]
    exact ⟨hname, hlen⟩

/-- `inode_remove` empties a slot, and drops it if it is the last one. -/
theorem IsDirectory.inodeRemove (h : c.IsDirectory sb base inode s slots)
    (hroom : numSlots ≤ (c.pool \ base).card) (hmax : dirEntrySize * i < inodeMaxBytes) :
    ∃ inode' t, inodeRemove sb cache inode (dirEntrySize * i) s = .ok (inode', t) ∧
      c.IsDirectory sb base inode' t (removeSlot slots i) := by
  obtain ⟨inode', t, hremove, ht⟩ :=
    (h.holds.inodeRemove_cases (allocOr_of_room hroom) hmax).resolve_right fun hfail => hfail.1
  exact ⟨inode', t, hremove,
    ht.isDirectory (map_removeSlot slots i).symm (named_removeSlot h.names i)⟩

end BlockCache.Ideal

/-! ## Entries that were inserted and not removed since

A removed slot stays as a hole unless it is the last one, and an insertion goes to the end, so the
index of an entry never changes. -/

/-- An entry of a directory: the index that `inode_insert` returned for it, and its arguments. -/
structure LiveEntry where
  index : Nat
  name : List UInt8
  inodeNo : Nat

/-- The names that a directory entry may have. -/
def DirName (name : List UInt8) : Prop := 1 ≤ name.length ∧ name.length ≤ 13 ∧ 0 ∉ name

/-- What the directory stores for an entry. -/
def LiveEntry.bytes (e : LiveEntry) : List UInt8 := (DirSlot.entry (e.name, .ofNat e.inodeNo)).bytes

/-- `result` is the inode number of the lowest-index entry with the name, and `*index` the index of
this entry; or `0`, with `*index` as it was, if there is none. -/
def IsLookup (live : List LiveEntry) (name : List UInt8) (index : Option Nat)
    (result : Nat × Option Nat) : Prop :=
  (∃ e ∈ live, e.name = name ∧ (∀ e' ∈ live, e'.name = name → e.index ≤ e'.index) ∧
    result = (e.inodeNo, index.map fun _ => e.index)) ∨
  ((∀ e ∈ live, e.name ≠ name) ∧ result = (0, index))

/-- The entries are those in the slots with a name. -/
def Lives (slots : List DirSlot) (live : List LiveEntry) : Prop :=
  ∀ e, e ∈ live ↔ e.name ≠ [] ∧ ∃ i inodeNo, e.index = dirEntrySize * i ∧
    slots[i]? = some (e.name, inodeNo) ∧ inodeNo.toNat = e.inodeNo

variable {live : List LiveEntry} {inodeNo : Nat}

/-- An empty directory has no entries. -/
theorem Lives.nil : Lives [] [] := by
  intro e
  simp

/-- A new entry gets the index behind the last slot. So it does not take the index of an entry that
somebody may still know. -/
theorem Lives.insert (h : Lives slots live) (hname : name ≠ []) (hno : inodeNo < 65536) :
    Lives (slots ++ [(name, .ofNat inodeNo)])
      (live ++ [⟨dirEntrySize * slots.length, name, inodeNo⟩]) := by
  have hval : (UInt16.ofNat inodeNo).toNat = inodeNo := by
    rw [UInt16.toNat_ofNat', Nat.mod_eq_of_lt hno]
  intro e
  rw [List.mem_append, List.mem_singleton, h]
  constructor
  · rintro (⟨hne, i, no, hindex, hslot, heq⟩ | rfl)
    · refine ⟨hne, i, no, hindex, ?_, heq⟩
      rwa [List.getElem?_append_left (List.getElem?_eq_some_iff.mp hslot).1]
    · exact ⟨hname, slots.length, .ofNat inodeNo, rfl, List.getElem?_concat_length, hval⟩
  · rintro ⟨hne, i, no, hindex, hslot, heq⟩
    rcases Nat.lt_or_ge i slots.length with hi | hi
    · rw [List.getElem?_append_left hi] at hslot
      exact .inl ⟨hne, i, no, hindex, hslot, heq⟩
    · have hi' : i = slots.length := by
        have hlt := (List.getElem?_eq_some_iff.mp hslot).1
        rw [List.length_append, List.length_singleton] at hlt
        omega
      subst hi'
      rw [List.getElem?_concat_length] at hslot
      obtain ⟨index, name', no'⟩ := e
      simp only [Option.some.injEq, Prod.mk.injEq] at hslot hindex heq
      obtain ⟨rfl, rfl⟩ := hslot
      rw [hval] at heq
      exact .inr (by rw [hindex, heq])

/-- The slots other than `i` keep their names. Slot `i` has the empty name then, or is gone if it
was the last one. -/
theorem getElem?_removeSlot {j : Nat} {x : DirSlot} (hx : x.1 ≠ []) :
    (removeSlot slots i)[j]? = some x ↔ j ≠ i ∧ slots[j]? = some x := by
  unfold removeSlot
  split
  · next hi =>
    rw [List.getElem?_take]
    split
    · next hj => simp [Nat.ne_of_lt hj]
    · next hj =>
      apply iff_of_false (by simp)
      rintro ⟨hji, hslot⟩
      have hlt := (List.getElem?_eq_some_iff.mp hslot).1
      omega
  · rw [List.getElem?_set]
    split
    · next hij =>
      refine iff_of_false ?_ fun hj => hj.1 hij.symm
      split
      · intro heq
        rw [Option.some.injEq] at heq
        exact hx (by rw [← heq])
      · simp
    · next hij => simp [Ne.symm hij]

/-- Removing an entry removes no other: the slots of the others stay where they are, and so do their
indexes. -/
theorem Lives.remove (h : Lives slots live) (i : Nat) :
    Lives (removeSlot slots i) (live.filter (·.index ≠ dirEntrySize * i)) := by
  intro e
  simp only [List.mem_filter, decide_eq_true_eq, h e]
  constructor
  · rintro ⟨⟨hne, j, no, hindex, hslot, heq⟩, hother⟩
    refine ⟨hne, j, no, hindex, (getElem?_removeSlot hne).mpr ⟨?_, hslot⟩, heq⟩
    rintro rfl
    exact hother hindex
  · rintro ⟨hne, j, no, hindex, hslot, heq⟩
    obtain ⟨hji, hslot⟩ := (getElem?_removeSlot hne).mp hslot
    refine ⟨⟨hne, j, no, hindex, hslot, heq⟩, ?_⟩
    rw [hindex]
    unfold dirEntrySize fileNameMaxLength
    omega

/-- The search finds the first slot with the name, or there is none. By induction on the slots, with
the index of the first of them carried along. -/
theorem findSlot_cases (name : List UInt8) (slots : List DirSlot) (i : Nat) :
    (∃ j no, findSlot name slots i = some (i + dirEntrySize * j, no) ∧
      slots[j]? = some (name, no) ∧ ∀ (k : Nat) no', slots[k]? = some (name, no') → j ≤ k) ∨
    (findSlot name slots i = none ∧ ∀ (k : Nat) no, slots[k]? ≠ some (name, no)) := by
  induction slots generalizing i with
  | nil => exact .inr ⟨rfl, by simp⟩
  | cons x slots ih =>
    rw [findSlot]
    by_cases hx : x.1 = name
    · refine .inl ⟨0, x.2, if_pos hx, ?_, fun _ _ _ => Nat.zero_le _⟩
      rw [← hx]
      rfl
    · rw [if_neg hx]
      have hhead : ∀ no, (x :: slots)[0]? ≠ some (name, no) := by
        intro no heq
        rw [List.getElem?_cons_zero, Option.some.injEq] at heq
        exact hx (by rw [heq])
      rcases ih (i + dirEntrySize) with ⟨j, no, hfind, hslot, hmin⟩ | ⟨hfind, hnone⟩
      · refine .inl ⟨j + 1, no, ?_, by rwa [List.getElem?_cons_succ], ?_⟩
        · rw [hfind, Nat.mul_succ, Nat.add_assoc, Nat.add_comm dirEntrySize]
        · intro k no' hk
          cases k with
          | zero => exact absurd hk (hhead no')
          | succ k =>
            rw [List.getElem?_cons_succ] at hk
            exact Nat.succ_le_succ (hmin k no' hk)
      · refine .inr ⟨hfind, ?_⟩
        intro k no hk
        cases k with
        | zero => exact hhead no hk
        | succ k =>
          rw [List.getElem?_cons_succ] at hk
          exact hnone k no hk

/-- The first slot with a name is the entry with the lowest index. -/
theorem Lives.isLookup (h : Lives slots live) (hname : name ≠ []) (index : Option Nat) :
    IsLookup live name index (lookupResult index (findSlot name slots 0)) := by
  rcases findSlot_cases name slots 0 with ⟨j, no, hfind, hslot, hmin⟩ | ⟨hfind, hnone⟩
  · have hmem : ⟨dirEntrySize * j, name, no.toNat⟩ ∈ live :=
      (h _).mpr ⟨hname, j, no, rfl, hslot, rfl⟩
    refine .inl ⟨_, hmem, rfl, ?_, ?_⟩
    · rintro ⟨index', name', no'⟩ he' rfl
      obtain ⟨-, k, no'', rfl, hk, -⟩ := (h _).mp he'
      exact Nat.mul_le_mul_left _ (hmin k no'' hk)
    · rw [hfind, Nat.zero_add]
      rfl
  · refine .inr ⟨?_, by rw [hfind]; rfl⟩
    rintro ⟨index', name', no'⟩ he rfl
    obtain ⟨-, k, no'', -, hk, -⟩ := (h _).mp he
    exact hnone k no'' hk

/-! ## Sequences of calls

The list of live entries is what a caller keeps track of: it grows with `inode_insert` and shrinks
with `inode_remove`. -/

/-- The states that calls on a directory lead to, with the entries that were inserted and not
removed since. Fewer than 4096 slots are in use, the new one of `inode_insert` included. -/
inductive DirRun (sb : SuperBlock) (cache : BlockCache σ) (inode₀ : Inode) (s₀ : σ) :
    Inode → σ → List LiveEntry → Prop
  | start : DirRun sb cache inode₀ s₀ inode₀ s₀ []
  | insert {inode inode' s t live name inodeNo index}
      (run : DirRun sb cache inode₀ s₀ inode s live) (hname : DirName name)
      (hno : 1 ≤ inodeNo ∧ inodeNo ≤ 65535)
      (hslots : inode.entry.numBytes.toNat / dirEntrySize + 1 < 4096)
      (call : inodeInsert sb cache inode name inodeNo s = .ok (index, inode', t)) :
      DirRun sb cache inode₀ s₀ inode' t (live ++ [⟨index, name, inodeNo⟩])
  | remove {inode inode' s t live index} (run : DirRun sb cache inode₀ s₀ inode s live)
      (call : inodeRemove sb cache inode index s = .ok (inode', t)) :
      DirRun sb cache inode₀ s₀ inode' t (live.filter (·.index ≠ index))
  | lookup {inode s t live name index result} (run : DirRun sb cache inode₀ s₀ inode s live)
      (hname : DirName name) (call : inodeLookup cache inode name index s = .ok (result, t)) :
      DirRun sb cache inode₀ s₀ inode t live

namespace BlockCache.Ideal

variable {cache : BlockCache σ} {c : cache.Ideal} {sb : SuperBlock} {base : Finset Nat}
  {inode inode' : Inode} {s t : σ}

/-- A directory with the given entries. -/
def HasEntries (c : cache.Ideal) (sb : SuperBlock) (base : Finset Nat) (inode : Inode) (s : σ)
    (live : List LiveEntry) : Prop :=
  ∃ slots, c.IsDirectory sb base inode s slots ∧ Lives slots live

/-- `inode_lookup` finds the entry with the lowest index. -/
theorem HasEntries.lookup (h : c.HasEntries sb base inode s live) (hname : DirName name)
    (index : Option Nat) :
    ∃ result t, inodeLookup cache inode name index s = .ok (result, t) ∧
      IsLookup live name index result ∧ c.HasEntries sb base inode t live := by
  obtain ⟨slots, hdir, hlive⟩ := h
  obtain ⟨t, hcall, ht⟩ := hdir.inodeLookup hname.2.2 (Nat.lt_succ_of_le hname.2.1) index
  exact ⟨_, t, hcall, hlive.isLookup (List.ne_nil_of_length_pos hname.1) index, ⟨slots, ht, hlive⟩⟩

/-- `inode_insert` adds an entry at an index that no other entry has. -/
theorem HasEntries.insert (h : c.HasEntries sb base inode s live)
    (hroom : numSlots ≤ (c.pool \ base).card) (hname : DirName name) (hno : inodeNo ≤ 65535)
    (hslots : inode.entry.numBytes.toNat / dirEntrySize + 1 < 4096) :
    ∃ index inode' t, inodeInsert sb cache inode name inodeNo s = .ok (index, inode', t) ∧
      (∀ e ∈ live, e.index ≠ index) ∧
      c.HasEntries sb base inode' t (live ++ [⟨index, name, inodeNo⟩]) := by
  obtain ⟨slots, hdir, hlive⟩ := h
  rw [hdir.numBytes, Nat.mul_div_cancel_left _ (by decide)] at hslots
  obtain ⟨inode', t, hcall, ht⟩ :=
    hdir.inodeInsert hroom hname.2.2 (Nat.lt_succ_of_le hname.2.1) hslots inodeNo
  refine ⟨_, inode', t, hcall, ?_, ⟨_, ht,
    hlive.insert (List.ne_nil_of_length_pos hname.1) (Nat.lt_succ_of_le hno)⟩⟩
  intro e he
  obtain ⟨-, i, no, hindex, hslot, -⟩ := (hlive e).mp he
  have hi := (List.getElem?_eq_some_iff.mp hslot).1
  rw [hindex]
  unfold dirEntrySize fileNameMaxLength
  omega

/-- `inode_remove` removes the entry at its index, if there is one. -/
theorem HasEntries.remove (h : c.HasEntries sb base inode s live)
    (hroom : numSlots ≤ (c.pool \ base).card) {index : Nat} (hmax : index < inodeMaxBytes)
    (hmod : index % dirEntrySize = 0) :
    ∃ inode' t, inodeRemove sb cache inode index s = .ok (inode', t) ∧
      c.HasEntries sb base inode' t (live.filter (·.index ≠ index)) := by
  obtain ⟨slots, hdir, hlive⟩ := h
  obtain ⟨i, rfl⟩ := Nat.dvd_of_mod_eq_zero hmod
  obtain ⟨inode', t, hcall, ht⟩ := hdir.inodeRemove hroom hmax
  exact ⟨inode', t, hcall, ⟨_, ht, hlive.remove i⟩⟩

/-- Every entry is stored at its index: `inode_read` of 16 bytes there returns the number and the
name. -/
theorem HasEntries.read (h : c.HasEntries sb base inode s live) {e : LiveEntry} (he : e ∈ live) :
    ∃ t, inodeRead cache inode e.index dirEntrySize s = .ok (e.bytes, t) := by
  obtain ⟨slots, hdir, hlive⟩ := h
  obtain ⟨-, i, no, hindex, hslot, hno⟩ := (hlive e).mp he
  have hi := (List.getElem?_eq_some_iff.mp hslot).1
  have hle : dirEntrySize * i + dirEntrySize ≤ (dirFile slots).length := by
    rw [length_dirFile, ← Nat.mul_succ]
    exact Nat.mul_le_mul_left _ hi
  obtain ⟨t, hread, -⟩ := hdir.rep.inodeRead hle
  refine ⟨t, ?_⟩
  rw [hindex, hread, dirFile_read hslot, LiveEntry.bytes, ← hno, UInt16.ofNat_toNat]

/-- Every call leads to a directory with the entries of the list. By induction on the calls, one
lemma for each kind of them. -/
theorem HasEntries.run (h : c.HasEntries sb base inode s [])
    (hroom : numSlots ≤ (c.pool \ base).card) (hrun : DirRun sb cache inode s inode' t live) :
    c.HasEntries sb base inode' t live := by
  induction hrun with
  | start => exact h
  | insert _ hname hno hslots call ih =>
    obtain ⟨index, inode', t, hcall, -, ht⟩ := ih.insert hroom hname hno.2 hslots
    rw [hcall] at call
    cases call
    exact ht
  | remove _ call ih =>
    obtain ⟨_, -, hcall⟩ := bind_eq_ok.mp call
    obtain ⟨_, hmax, hcall⟩ := bind_eq_ok.mp hcall
    obtain ⟨_, hmod, -⟩ := bind_eq_ok.mp hcall
    obtain ⟨inode', t, hcall, ht⟩ := ih.remove hroom (kassert_eq_ok.mp hmax) (kassert_eq_ok.mp hmod)
    rw [hcall] at call
    cases call
    exact ht
  | lookup _ hname call ih =>
    obtain ⟨_, t, hcall, -, ht⟩ := ih.lookup hname _
    rw [hcall] at call
    cases call
    exact ht

/-- A directory that is empty at the start is a map from names to inode numbers, after every
sequence of calls: `inode_lookup` returns the entry with the lowest index among those that were
inserted with the name and not removed since, `inode_insert` takes an index that none of them has,
and `inode_remove` leaves those at other indices as they are. -/
theorem directory_is_map (h : c.Represents sb base inode s [])
    (htype : inode.entry.type = inodeDirectory) (hroom : numSlots ≤ (c.pool \ base).card)
    (hrun : DirRun sb cache inode s inode' t live) :
    (∀ name index, DirName name → ∃ result u,
      inodeLookup cache inode' name index t = .ok (result, u) ∧ IsLookup live name index result) ∧
    (∀ name inodeNo, DirName name → 1 ≤ inodeNo ∧ inodeNo ≤ 65535 →
      inode'.entry.numBytes.toNat / dirEntrySize + 1 < 4096 → ∃ index inode'' u,
        inodeInsert sb cache inode' name inodeNo t = .ok (index, inode'', u) ∧
        ∀ e ∈ live, e.index ≠ index) ∧
    (∀ index, index < inodeMaxBytes → index % dirEntrySize = 0 → ∃ inode'' u,
      inodeRemove sb cache inode' index t = .ok (inode'', u) ∧
        ∀ e ∈ live, e.index ≠ index →
          ∃ v, inodeRead cache inode'' e.index dirEntrySize u = .ok (e.bytes, v)) ∧
    ∀ e ∈ live, ∃ u, inodeRead cache inode' e.index dirEntrySize t = .ok (e.bytes, u) := by
  have hstart : c.HasEntries sb base inode s [] := ⟨[], ⟨h, htype, by simp⟩, .nil⟩
  have hentries := hstart.run hroom hrun
  refine ⟨?_, ?_, ?_, fun e he => hentries.read he⟩
  · intro name index hname
    obtain ⟨result, u, hcall, hlookup, -⟩ := hentries.lookup hname index
    exact ⟨result, u, hcall, hlookup⟩
  · intro name inodeNo hname hno hslots
    obtain ⟨index, inode'', u, hcall, hother, -⟩ := hentries.insert hroom hname hno.2 hslots
    exact ⟨index, inode'', u, hcall, hother⟩
  · intro index hmax hmod
    obtain ⟨inode'', u, hcall, hentries'⟩ := hentries.remove hroom hmax hmod
    refine ⟨inode'', u, hcall, ?_⟩
    intro e he hother
    exact hentries'.read (List.mem_filter.mpr ⟨he, decide_eq_true hother⟩)

end BlockCache.Ideal

/-- An empty directory, inode `2`. -/
def mockDirectory : Inode := ⟨2, true, { InodeEntry.zero with type := inodeDirectory }⟩

/-- The mock cache with the entry of `mockDirectory` in block `100`. -/
def mockDirectoryState : MockState :=
  ⟨fun b => if b = 100 then putEntry .zero 2 mockDirectory.entry else .zero, {100}⟩

/-- The directory is empty. -/
theorem mockDirectory_represents :
    mockCacheIdeal.Represents (smallSuperBlock 20) {100} mockDirectory mockDirectoryState [] := by
  constructor
  case owns => exact BlockCache.Ideal.owns_of_no_blocks (fun _ => rfl) rfl rfl
  case valid => rfl
  case inodeNo => decide
  case block => decide
  case type => decide
  case stored =>
    show (getEntry (putEntry .zero 2 mockDirectory.entry) 2).type ≠ inodeInvalid
    rw [getEntry_putEntry, if_pos rfl]
    decide
  case size => rfl
  case mapped => simp
  case content => simp

/-- The name `a` is found after its insertion, with its number, and `*index` is where the insertion
said. -/
theorem directory_is_map_insert :
    ∃ index inode t u,
      inodeInsert (smallSuperBlock 20) mockCache mockDirectory [97] 5 mockDirectoryState =
        .ok (index, inode, t) ∧
      inodeLookup mockCache inode [97] (some 233) t = .ok ((5, some index), u) := by
  have hname : DirName [97] := ⟨by decide, by decide, by decide⟩
  obtain ⟨-, hinsert, -⟩ :=
    BlockCache.Ideal.directory_is_map mockDirectory_represents rfl mockCache_room .start
  obtain ⟨index, inode, t, hcall, -⟩ := hinsert [97] 5 hname (by decide) (by decide)
  obtain ⟨hlookup, -⟩ := BlockCache.Ideal.directory_is_map mockDirectory_represents rfl mockCache_room
    (.insert .start hname (by decide) (by decide) hcall)
  obtain ⟨result, u, hfound, hresult⟩ := hlookup [97] (some 233) hname
  refine ⟨index, inode, t, u, hcall, ?_⟩
  rw [hfound]
  rcases hresult with ⟨e, he, -, -, rfl⟩ | ⟨hnone, -⟩
  · rw [List.nil_append, List.mem_singleton] at he
    subst he
    rfl
  · exact absurd rfl (hnone _ (List.mem_singleton_self _))

end KernelAarch64.Fs
