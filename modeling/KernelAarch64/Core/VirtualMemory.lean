import KernelAarch64.Core.PhysicalMemory
import KernelAarch64.Lib.Radix
import Mathlib.Tactic.IntervalCases

/-!
# User page tables (`core/virtual_memory.c`, `aarch64/mmu.h`)

A page directory is a four-level tree of tables in memory. `my_pgdir_walk` goes down the tree
along the 9-bit indices of an address and, if asked to, creates the tables that are missing;
`my_uvm_map` writes the entry it finds.

Memory is a function from addresses to 64-bit words, and a word is a number below `2 ^ 64`. What
`kalloc` returns during a call is given as a list of pages.

The tables of a directory are an instance of `Lib.Radix`: an entry leads to a table if it has
`PTE_VALID`, and the tables are read off the memory. Two things can happen to them. A page becomes a
table (`link_table`), which translates no address differently, and an entry of a last table is
written (`mapped_update`), which translates the addresses of one page differently. The walk is a
sequence of the first and a call of `my_uvm_map` ends with the second (`myUvmMap_cases`), so that
along a history the directory is the partial map of the calls (`MapRun.refines`). The main result is
`mapRun_refines_iff`.
-/

namespace KernelAarch64.Core

open KernelAarch64.Lib

/-- 64-bit words by their addresses. -/
abbrev Mem := Nat → Nat

/-- `PTE_VALID` -/
abbrev pteValid : Nat := 0x1

/-- `PTE_TABLE` -/
abbrev pteTable : Nat := 0x3

/-- `PTE_USER_DATA` -/
abbrev pteUserData : Nat := 0x647

/-- `KSPACE_MASK` -/
abbrev kspaceMask : Nat := 0xffff000000000000

/-- `K2P(addr)` -/
def k2p (addr : Nat) : Nat := (addr + 2 ^ 64 - kspaceMask) % 2 ^ 64

/-- `P2K(addr)` -/
def p2k (addr : Nat) : Nat := (addr + kspaceMask) % 2 ^ 64

/-- `PTE_ADDRESS(pte)`: the low twelve bits are cleared. -/
def pteAddress (pte : Nat) : Nat := pte / 4096 * 4096

/-- `PTX(index, va)` -/
def ptx (index va : Nat) : Fin 512 := ⟨va / 2 ^ (9 * index + 12) % 512, Nat.mod_lt _ (by decide)⟩

/-- A page-aligned address. Tables and mapped pages are both of this type, so alignment needs no
hypothesis. -/
@[ext]
structure Page where
  addr : Nat
  lt : addr < 2 ^ 64
  aligned : addr % pageSize = 0
  deriving DecidableEq

namespace Page

/-- `&pgdir[i]` -/
def entry (t : Page) (i : Fin 512) : Nat := t.addr + 8 * i.val

/-- `(PTEntriesPtr)P2K(PTE_ADDRESS(pte))`: where the kernel finds the page that an entry names. The
flags are cleared first, so it is a page for any entry. -/
def ofPte (pte : Nat) : Page where
  addr := p2k (pteAddress pte)
  lt := Nat.mod_lt _ (by decide)
  aligned := by
    unfold p2k pteAddress pageSize kspaceMask
    omega

end Page

/-- `my_pgdir_init`, with the page `kalloc` returns. -/
def myPgdirInit (mem : Mem) (page : Page) : Mem × Page :=
  (fun a => if page.addr ≤ a ∧ a < page.addr + pageSize then 0 else mem a, page)

/-- The loop of `my_pgdir_walk` from `index` on; `none` is `NULL`. A page that becomes a table is
linked as it comes from `kalloc`, without being cleared. -/
def myPgdirWalk (va : Nat) (alloc : Bool) :
    (index : Nat) → Mem → List Page → Page → Except Stop (Mem × List Page × Option Nat)
  | 0, mem, kalloc, pgdir => .ok (mem, kalloc, some (pgdir.entry (ptx 0 va)))
  | index + 1, mem, kalloc, pgdir =>
    let p := pgdir.entry (ptx (index + 1) va)
    if mem p &&& pteValid ≠ 0 then myPgdirWalk va alloc index mem kalloc (Page.ofPte (mem p))
    else if !alloc then .ok (mem, kalloc, none)
    else
      match kalloc with
      | [] => .error (.panic "kmem: kalloc fails.")
      | page :: kalloc =>
        myPgdirWalk va alloc index (Function.update mem p (k2p page.addr ||| pteTable)) kalloc page

/-- The loop of `my_uvm_map`: the memory and the value returned, or `none` when it has not returned
after `fuel` iterations. -/
def uvmMapLoop (pgdir : Page) (va end_ : Nat) :
    (fuel : Nat) → (p pa : Nat) → Mem → List Page → Option (Except Stop (Mem × Int))
  | 0, _, _, _, _ => none
  | fuel + 1, p, pa, mem, kalloc =>
    if p ≤ end_ then
      match myPgdirWalk va true 3 mem kalloc pgdir with
      | .error stop => some (.error stop)
      | .ok (mem, _, none) => some (.ok (mem, -1))
      | .ok (mem, kalloc, some pte) =>
        uvmMapLoop pgdir va end_ fuel ((p + pageSize) % 2 ^ 64) ((pa + pageSize) % 2 ^ 64)
          (Function.update mem pte (pteAddress pa ||| pteUserData)) kalloc
    else some (.ok (mem, 0))

/-- `my_uvm_map(pgdir, va, sz, pa)`. Both ends of the range are rounded down to pages; the sum wraps
around as `u64` does. -/
def myUvmMap (fuel : Nat) (mem : Mem) (kalloc : List Page) (pgdir : Page) (va sz pa : Nat) :
    Option (Except Stop (Mem × Int)) :=
  let start := va - va % pageSize
  let last := (va + sz + 2 ^ 64 - 1) % 2 ^ 64
  let end_ := last - last % pageSize
  uvmMapLoop pgdir va end_ fuel start pa mem kalloc

/-! ## Entries and indices

What an entry says when it is read as a number: the table it leads to, and the address it keeps. The
tables are those that `K2P` and `P2K` take to each other. -/

/-- Flags below the page size are added to an aligned address. -/
theorem aligned_or_eq_add {x flags : Nat} (hx : x % 4096 = 0) (hflags : flags < 4096) :
    x ||| flags = x + flags := by
  have hmul : x = 2 ^ 12 * (x / 4096) := by omega
  rw [hmul]
  exact (Nat.two_pow_add_eq_or_of_lt hflags (x / 4096)).symm

/-- `PTE_VALID` is the lowest bit. -/
theorem and_pteValid (e : Nat) : e &&& pteValid ≠ 0 ↔ e % 2 = 1 := by
  rw [Nat.and_one_is_mod]
  omega

/-- The table an entry points to. -/
def nextTable (e : Nat) : Option Page := if e &&& pteValid ≠ 0 then some (Page.ofPte e) else none

/-- An entry of a new page directory leads nowhere. -/
theorem nextTable_zero : nextTable 0 = none := by
  simp [nextTable]

/-- The address of a table comes back from its entry: the flags are in the bits below the page,
which the walk masks out, and the two conversions are inverse. -/
theorem p2k_k2p {addr : Nat} (hlt : addr < 2 ^ 64) (haligned : addr % 4096 = 0) :
    k2p addr % 4096 = 0 ∧ p2k (pteAddress (k2p addr + pteTable)) = addr := by
  have hk2p : k2p addr % 4096 = 0 := by
    unfold k2p kspaceMask
    omega
  have haddress : pteAddress (k2p addr + pteTable) = k2p addr := by
    unfold pteAddress pteTable
    omega
  refine ⟨hk2p, ?_⟩
  rw [haddress]
  unfold p2k k2p kspaceMask
  omega

/-- An entry written for a table points to it. -/
theorem nextTable_link (t : Page) : nextTable (k2p t.addr ||| pteTable) = some t := by
  obtain ⟨hk2p, haddr⟩ := p2k_k2p t.lt t.aligned
  have hvalid : k2p t.addr + pteTable &&& pteValid ≠ 0 := by
    rw [and_pteValid]
    unfold pteTable
    omega
  rw [aligned_or_eq_add hk2p (by decide), nextTable, if_pos hvalid]
  exact congrArg some (Page.ext haddr)

/-- An entry written for a page is valid and keeps its address: the flags are outside of the field
for the address. -/
theorem pteUserData_entry (pa : Nat) :
    (nextTable (pteAddress pa ||| pteUserData)).isSome ∧
      pteAddress (pteAddress pa ||| pteUserData) = pteAddress pa := by
  have haligned : pteAddress pa % 4096 = 0 := by
    unfold pteAddress
    omega
  rw [aligned_or_eq_add haligned (by decide)]
  constructor
  · rw [nextTable, if_pos]
    · rfl
    · rw [and_pteValid]
      unfold pteUserData
      omega
  · unfold pteAddress pteUserData
    omega

/-- The tables that a memory holds. -/
def tables (mem : Mem) : Page → Fin 512 → Nat := fun t i => mem (t.entry i)

/-- Entries of different tables are different words, since a table is aligned and has the size of a
page. -/
theorem Page.entry_inj {t u : Page} {i j : Fin 512} (h : t.entry i = u.entry j) :
    t = u ∧ i = j := by
  obtain ⟨a, _, ha⟩ := t
  obtain ⟨b, _, hb⟩ := u
  have hi := i.isLt
  have hj := j.isLt
  unfold entry at h
  unfold pageSize at ha hb
  simp only at h
  constructor
  · apply Page.ext
    show a = b
    omega
  · apply Fin.ext
    omega

/-- Writing an entry changes this entry of this table only, since two entries that differ in the
table or in the index have different addresses. -/
theorem tables_update (mem : Mem) (t : Page) (i : Fin 512) (e : Nat) :
    tables (Function.update mem (t.entry i) e) = Radix.set (tables mem) t i e := by
  funext u j
  show Function.update mem (t.entry i) e (u.entry j) = _
  by_cases h : u = t ∧ j = i
  · obtain ⟨rfl, rfl⟩ := h
    rw [Function.update_self, Radix.set_self]
  · rw [Radix.set_of_ne h, Function.update_of_ne fun heq => h (Page.entry_inj heq)]
    rfl

/-- The page of an address: its bits 12 to 47. -/
def pageOf (va : Nat) : Nat := va / 4096 % 2 ^ 36

/-- The indices that lead from a table `k` levels above the last one to the last one. -/
def pathFrom (va : Nat) : Nat → List (Fin 512)
  | 0 => []
  | k + 1 => ptx (k + 1) va :: pathFrom va k

/-- The indices that lead from the page directory to the last table. -/
abbrev path (va : Nat) : List (Fin 512) := pathFrom va 3

/-- There is an index for each level. -/
theorem pathFrom_length (va k : Nat) : (pathFrom va k).length = k := by
  induction k with
  | zero => rfl
  | succ k ih =>
    rw [pathFrom, List.length_cons, ih]

/-- The four indices determine the page and the page the indices. -/
theorem path_eq_iff (va va' : Nat) :
    path va = path va' ∧ ptx 0 va = ptx 0 va' ↔ pageOf va = pageOf va' := by
  simp only [path, pathFrom, ptx, pageOf, List.cons.injEq, Fin.mk.injEq, and_true]
  norm_num
  omega

/-! ## Walking down

The walk keeps three things: the tables form a tree (`Walked`), what is new are pages of `kalloc`
(`Grown`), and no address is translated differently. The induction is on the levels that are left.
-/

variable {mem mem' : Mem} {pgdir t : Page} {va : Nat} {kalloc : List Page}

/-- The table reached from the page directory along a path. -/
abbrev tableAt (mem : Mem) (pgdir : Page) (p : List (Fin 512)) : Option Page :=
  Radix.descend nextTable (tables mem) pgdir p

/-- The tables of a page directory form a tree. -/
abbrev IsTree (mem : Mem) (pgdir : Page) : Prop := Radix.Tree nextTable (tables mem) pgdir 3

/-- The entry of an address, if it is valid. -/
def translate (mem : Mem) (pgdir : Page) (va : Nat) : Option Nat :=
  Radix.lookup nextTable (tables mem) pgdir (path va) (ptx 0 va)

/-- A page that is not in use by a page directory and reads as zero, as `kalloc` returns them. -/
def Unused (mem : Mem) (pgdir f : Page) : Prop :=
  (∀ p, p.length ≤ 3 → tableAt mem pgdir p ≠ some f) ∧ ∀ i, tables mem f i = 0

/-- A page that reads as zero can become a table. -/
theorem Unused.fresh {f : Page} (h : Unused mem pgdir f) :
    Radix.Fresh nextTable (tables mem) pgdir 3 f := by
  refine ⟨h.1, ?_⟩
  intro i
  rw [h.2 i]
  exact nextTable_zero

/-- An entry with `PTE_VALID` leads to the table it names. -/
theorem nextTable_valid {e : Nat} (h : e &&& pteValid ≠ 0) : nextTable e = some (Page.ofPte e) :=
  if_pos h

/-- An entry without `PTE_VALID` leads nowhere. -/
theorem nextTable_invalid {e : Nat} (h : ¬ e &&& pteValid ≠ 0) : nextTable e = none :=
  if_neg h

/-- The test of the code is whether the entry leads somewhere. -/
theorem isSome_nextTable {e : Nat} : (nextTable e).isSome ↔ e &&& pteValid ≠ 0 := by
  by_cases h : e &&& pteValid ≠ 0
  · rw [nextTable_valid h]
    exact iff_of_true rfl h
  · rw [nextTable_invalid h]
    exact iff_of_false Bool.false_ne_true h

/-- One iteration of the walk: it goes to the next table if the entry is valid, makes one if `alloc`
says so, and stops at a null pointer otherwise. -/
theorem myPgdirWalk_succ (va : Nat) (alloc : Bool) (index : Nat) (mem : Mem) (kalloc : List Page)
    (t : Page) :
    myPgdirWalk va alloc (index + 1) mem kalloc t =
      if mem (t.entry (ptx (index + 1) va)) &&& pteValid ≠ 0 then
        myPgdirWalk va alloc index mem kalloc (Page.ofPte (mem (t.entry (ptx (index + 1) va))))
      else if !alloc then .ok (mem, kalloc, none)
      else
        match kalloc with
        | [] => .error (.panic "kmem: kalloc fails.")
        | page :: kalloc =>
          myPgdirWalk va alloc index
            (Function.update mem (t.entry (ptx (index + 1) va)) (k2p page.addr ||| pteTable))
            kalloc page := by
  rw [myPgdirWalk.eq_def]

/-- Without `alloc` the walk changes nothing and finds the entry in the last table, if there is
one. -/
theorem myPgdirWalk_find (va index : Nat) (mem : Mem) (kalloc : List Page) (t : Page) :
    myPgdirWalk va false index mem kalloc t =
      .ok (mem, kalloc, (tableAt mem t (pathFrom va index)).map fun u => u.entry (ptx 0 va)) := by
  induction index generalizing t with
  | zero => rfl
  | succ index ih =>
    rw [myPgdirWalk_succ, pathFrom, tableAt, Radix.descend, tables]
    by_cases hvalid : mem (t.entry (ptx (index + 1) va)) &&& pteValid ≠ 0
    · rw [if_pos hvalid, nextTable_valid hvalid]
      exact ih _
    · rw [if_neg hvalid, nextTable_invalid hvalid]
      rfl

/-- What the walk with `alloc` leaves: the last table is there, the tables still form a tree and no
address is translated differently. -/
structure Walked (mem mem' : Mem) (pgdir : Page) (p : List (Fin 512)) (t : Page) : Prop where
  tree : IsTree mem' pgdir
  found : tableAt mem' pgdir p = some t
  same : ∀ va, translate mem' pgdir va = translate mem pgdir va

/-- A page that no table leads to and that has no valid entry. -/
abbrev IsFresh (mem : Mem) (pgdir f : Page) : Prop := Radix.Fresh nextTable (tables mem) pgdir 3 f

/-- The tables are those of before and the pages in `used`, and fresh pages that are not in `used`
stay fresh. -/
structure Grown (mem mem' : Mem) (pgdir : Page) (used : List Page) : Prop where
  tables : ∀ p u, p.length ≤ 3 → tableAt mem' pgdir p = some u →
    tableAt mem pgdir p = some u ∨ u ∈ used
  fresh : ∀ g, g ∉ used → IsFresh mem pgdir g → IsFresh mem' pgdir g

theorem Grown.refl (mem : Mem) (pgdir : Page) : Grown mem mem pgdir [] :=
  ⟨fun _ _ _ h => .inl h, fun _ _ h => h⟩

/-- Two steps, one after the other. The tables that were taken are those of both. -/
theorem Grown.trans {mem₁ : Mem} {used used' : List Page} (h : Grown mem mem₁ pgdir used)
    (h' : Grown mem₁ mem' pgdir used') : Grown mem mem' pgdir (used ++ used') := by
  constructor
  · intro p u hp hu
    rcases h'.tables p u hp hu with hu | hu
    · exact (h.tables p u hp hu).imp_right (List.mem_append_left used')
    · exact .inr (List.mem_append_right used hu)
  · intro g hg hfresh
    rw [List.mem_append, not_or] at hg
    exact h'.fresh g hg.2 (h.fresh g hg.1 hfresh)

/-- A page that no table leads to is made a table: the other pages stay as they are, and so does
what addresses are translated to. -/
theorem link_table {p : List (Fin 512)} {i : Fin 512} {f : Page} (htree : IsTree mem pgdir)
    (hlt : p.length < 3) (ht : tableAt mem pgdir p = some t)
    (hnone : nextTable (tables mem t i) = none)
    (hfresh : IsFresh mem pgdir f) {mem₁ : Mem}
    (hmem : mem₁ = Function.update mem (t.entry i) (k2p f.addr ||| pteTable)) :
    IsTree mem₁ pgdir ∧ tableAt mem₁ pgdir (p ++ [i]) = some f ∧ Grown mem mem₁ pgdir [f] ∧
    ∀ va, translate mem₁ pgdir va = translate mem pgdir va := by
  have hlink := nextTable_link f
  have htables : tables mem₁ = _ := hmem ▸ tables_update mem t i _
  refine ⟨?_, ?_, ?_, ?_⟩
  · rw [IsTree, htables]
    exact Radix.Tree.link htree hlt ht hnone hfresh hlink
  · rw [tableAt, htables, Radix.descend_link htree hlt ht hnone hfresh hlink, if_pos rfl]
    rw [List.length_append, List.length_singleton]
    omega
  · constructor
    · intro q u hq hu
      rw [tableAt, htables, Radix.descend_link htree hlt ht hnone hfresh hlink hq] at hu
      split at hu
      · cases hu
        exact .inr (List.mem_singleton_self _)
      · exact .inl hu
    · intro g hgf hg
      rw [IsFresh, htables]
      apply Radix.Fresh.link htree hlt ht hnone hfresh hlink hg
      exact fun h => hgf (List.mem_singleton.mpr h)
  · intro va
    rw [translate, htables]
    exact Radix.lookup_link htree hlt ht hnone hfresh hlink (pathFrom_length va 3)

/-- The walk with `alloc`, from a table of the directory on. It panics only when `kalloc` has not
enough pages left. -/
theorem myPgdirWalk_alloc (va index : Nat) {p : List (Fin 512)} (hp : p.length + index = 3)
    (htree : IsTree mem pgdir) (ht : tableAt mem pgdir p = some t)
    (hunused : ∀ f ∈ kalloc, IsFresh mem pgdir f) (hnodup : kalloc.Nodup) :
    (kalloc.length < index ∧ ∃ stop, myPgdirWalk va true index mem kalloc t = .error stop) ∨
    ∃ mem' used kalloc' u, kalloc = used ++ kalloc' ∧
      myPgdirWalk va true index mem kalloc t = .ok (mem', kalloc', some (u.entry (ptx 0 va))) ∧
      Walked mem mem' pgdir (p ++ pathFrom va index) u ∧ Grown mem mem' pgdir used := by
  induction index generalizing mem kalloc t p with
  | zero =>
    refine .inr ⟨mem, [], kalloc, t, rfl, rfl, ⟨htree, ?_, fun _ => rfl⟩, Grown.refl mem pgdir⟩
    rw [pathFrom, List.append_nil]
    exact ht
  | succ index ih =>
    have hpath : p ++ pathFrom va (index + 1) =
        (p ++ [ptx (index + 1) va]) ++ pathFrom va index := by
      rw [pathFrom, List.append_assoc, List.singleton_append]
    have hlength : (p ++ [ptx (index + 1) va]).length + index = 3 := by
      rw [List.length_append, List.length_singleton]
      omega
    rw [hpath, myPgdirWalk_succ]
    by_cases hvalid : mem (t.entry (ptx (index + 1) va)) &&& pteValid ≠ 0
    · -- the table is there
      have hnext : tableAt mem pgdir (p ++ [ptx (index + 1) va]) =
          some (Page.ofPte (mem (t.entry (ptx (index + 1) va)))) := by
        rw [tableAt, Radix.descend_concat_of ht]
        exact nextTable_valid hvalid
      rw [if_pos hvalid]
      rcases ih hlength htree hnext hunused hnodup with ⟨hlen, hstop⟩ | hwalked
      · exact .inl ⟨by omega, hstop⟩
      · exact .inr hwalked
    · -- the table is created from the first page of `kalloc`
      have hnone : nextTable (tables mem t (ptx (index + 1) va)) = none :=
        nextTable_invalid hvalid
      rw [if_neg hvalid, if_neg (by decide)]
      cases kalloc with
      | nil => exact .inl ⟨Nat.succ_pos index, _, rfl⟩
      | cons f kalloc =>
        obtain ⟨hf, hnodup'⟩ := List.nodup_cons.mp hnodup
        obtain ⟨htree₁, ht₁, hgrown₁, hsame⟩ :=
          link_table htree (by omega) ht hnone (hunused f List.mem_cons_self) rfl
        have hrest : ∀ g ∈ kalloc, IsFresh (Function.update mem (t.entry (ptx (index + 1) va))
            (k2p f.addr ||| pteTable)) pgdir g := by
          intro g hg
          refine hgrown₁.fresh g ?_ (hunused g (List.mem_cons_of_mem f hg))
          rw [List.mem_singleton]
          rintro rfl
          exact hf hg
        rcases ih hlength htree₁ ht₁ hrest hnodup' with
          ⟨hlen, hstop⟩ | ⟨mem', used, kalloc', u, hused, hwalk, hwalked, hgrown⟩
        · refine .inl ⟨?_, hstop⟩
          rw [List.length_cons]
          omega
        · refine .inr ⟨mem', f :: used, kalloc', u, by rw [hused, List.cons_append], hwalk,
            ⟨hwalked.tree, hwalked.found, ?_⟩, hgrown₁.trans hgrown⟩
          exact fun va' => (hwalked.same va').trans (hsame va')

/-- Once the tables of an address are there, the walk with `alloc` needs no page. -/
theorem myPgdirWalk_there (alloc : Bool) (index : Nat) {u : Page}
    (h : tableAt mem t (pathFrom va index) = some u) :
    myPgdirWalk va alloc index mem kalloc t = .ok (mem, kalloc, some (u.entry (ptx 0 va))) := by
  induction index generalizing t with
  | zero =>
    cases h
    rfl
  | succ index ih =>
    rw [pathFrom, tableAt, Radix.descend] at h
    rw [myPgdirWalk_succ]
    by_cases hvalid : mem (t.entry (ptx (index + 1) va)) &&& pteValid ≠ 0
    · rw [tables, nextTable_valid hvalid] at h
      rw [if_pos hvalid]
      exact ih h
    · rw [tables, nextTable_invalid hvalid] at h
      cases h

/-! ## Mapping a page

The calls of the kernel are for one page. The loop then has one iteration, unless the page is the
last one of the address space, where the loop counter wraps around and never passes the end. -/

/-- A call of `my_uvm_map` on a directory, with its arguments as numbers. -/
structure MapCall where
  va : Nat
  sz : Nat
  pa : Nat

/-- The calls the kernel makes: a page-aligned address and at most one page. For other ranges see
`Range`. -/
structure MapCall.OnePage (c : MapCall) : Prop where
  lt : c.va < 2 ^ 64
  aligned : c.va % pageSize = 0
  sz_pos : 1 ≤ c.sz
  sz_le : c.sz ≤ pageSize
  pa_lt : c.pa < 2 ^ 64

/-- The page at the top of the address space. -/
abbrev lastPage : Nat := 2 ^ 64 - pageSize

/-- The entry a call writes. -/
def MapCall.pte (c : MapCall) : Nat := pteAddress c.pa ||| pteUserData

/-- The loop of `my_uvm_map` runs from the page to itself, and so it has one turn. -/
theorem myUvmMap_onePage {c : MapCall} (hc : c.OnePage) (fuel : Nat) :
    myUvmMap fuel mem kalloc pgdir c.va c.sz c.pa =
      uvmMapLoop pgdir c.va c.va fuel c.va c.pa mem kalloc := by
  obtain ⟨hlt, haligned, hpos, hle, -⟩ := hc
  have hstart : c.va - c.va % pageSize = c.va := by omega
  have hend : (c.va + c.sz + 2 ^ 64 - 1) % 2 ^ 64 - (c.va + c.sz + 2 ^ 64 - 1) % 2 ^ 64 % pageSize =
      c.va := by
    unfold pageSize at *
    omega
  rw [myUvmMap]
  simp only [hstart, hend]

/-- What a call leaves behind: the tables form a tree, the address is translated by the entry
written, and every other page as before. -/
structure Mapped (mem mem' : Mem) (pgdir : Page) (va pte : Nat) : Prop where
  tree : IsTree mem' pgdir
  found : ∃ t, tableAt mem' pgdir (path va) = some t
  translate : ∀ va', translate mem' pgdir va' =
    if pageOf va' = pageOf va then some pte else translate mem pgdir va'

/-- Writing the entry of an address whose tables are there maps this page, and no other address is
translated differently, because in a tree each entry belongs to one page. -/
theorem mapped_update (htree : IsTree mem pgdir) (ht : tableAt mem pgdir (path va) = some t)
    (pa : Nat) :
    Mapped mem (Function.update mem (t.entry (ptx 0 va)) (pteAddress pa ||| pteUserData)) pgdir va
      (pteAddress pa ||| pteUserData) := by
  have hlen := pathFrom_length va 3
  have htables := tables_update mem t (ptx 0 va) (pteAddress pa ||| pteUserData)
  refine ⟨?_, ⟨t, ?_⟩, ?_⟩
  · rw [IsTree, htables]
    exact Radix.Tree.set_leaf htree hlen ht
  · rw [tableAt, htables, Radix.descend_set_leaf htree hlen ht (Nat.le_of_eq hlen)]
    exact ht
  · intro va'
    rw [Core.translate, htables,
      Radix.lookup_set_leaf htree hlen ht (pteUserData_entry pa).1 (pathFrom_length va' 3)]
    by_cases hpage : pageOf va' = pageOf va
    · rw [if_pos hpage, if_pos ((path_eq_iff va' va).mpr hpage)]
    · rw [if_neg hpage, if_neg fun h => hpage ((path_eq_iff va' va).mp h)]
      rfl

/-- What `kalloc` returns during a call: distinct pages, none of them in use. -/
structure Supply (mem : Mem) (pgdir : Page) (kalloc : List Page) : Prop where
  unused : ∀ f ∈ kalloc, Unused mem pgdir f
  nodup : kalloc.Nodup

/-- Writing the entry of an address creates no table. What a last table points to is not looked
into. -/
theorem grown_update (htree : IsTree mem pgdir) (ht : tableAt mem pgdir (path va) = some t)
    (e : Nat) : Grown mem (Function.update mem (t.entry (ptx 0 va)) e) pgdir [] := by
  have hlen := pathFrom_length va 3
  have htables := tables_update mem t (ptx 0 va) e
  constructor
  · intro p u hp hu
    rw [tableAt, htables, Radix.descend_set_leaf htree hlen ht hp] at hu
    exact .inl hu
  · intro g _ hg
    rw [IsFresh, htables]
    constructor
    · intro p hp
      rw [Radix.descend_set_leaf htree hlen ht hp]
      exact hg.unreached p hp
    · intro i
      have hgt : g ≠ t := by
        rintro rfl
        exact hg.unreached (path va) (Nat.le_of_eq hlen) ht
      rw [Radix.set_of_ne fun h => hgt h.1]
      exact hg.empty i

/-- The walk of an iteration panics, or leads to an entry; writing it maps the page. -/
theorem myPgdirWalk_write (htree : IsTree mem pgdir) (hfresh : ∀ f ∈ kalloc, IsFresh mem pgdir f)
    (hnodup : kalloc.Nodup) (va : Nat) :
    (kalloc.length < 3 ∧ ∃ stop, myPgdirWalk va true 3 mem kalloc pgdir = .error stop) ∨
    ∃ mem' used kalloc' pte, kalloc = used ++ kalloc' ∧
      myPgdirWalk va true 3 mem kalloc pgdir = .ok (mem', kalloc', some pte) ∧
      ∀ pa, Mapped mem (Function.update mem' pte (pteAddress pa ||| pteUserData)) pgdir va
          (pteAddress pa ||| pteUserData) ∧
        Grown mem (Function.update mem' pte (pteAddress pa ||| pteUserData)) pgdir used := by
  rcases myPgdirWalk_alloc va 3 (p := []) rfl htree rfl hfresh hnodup with
    hpanic | ⟨mem₁, used, kalloc', t, hused, hwalk, hwalked, hgrown⟩
  · exact .inl hpanic
  · refine .inr ⟨mem₁, used, kalloc', _, hused, hwalk, ?_⟩
    intro pa
    have hmapped := mapped_update hwalked.tree hwalked.found pa
    refine ⟨⟨hmapped.tree, hmapped.found, ?_⟩, ?_⟩
    · intro va'
      rw [hmapped.translate va', hwalked.same va']
    · have := hgrown.trans (grown_update hwalked.tree hwalked.found (pteAddress pa ||| pteUserData))
      rwa [List.append_nil] at this

/-- The first iteration of the loop writes the entry, unless `kalloc` panics. -/
theorem uvmMapLoop_first {p end_ : Nat} (htree : IsTree mem pgdir)
    (hfresh : ∀ f ∈ kalloc, IsFresh mem pgdir f) (hnodup : kalloc.Nodup) (hp : p ≤ end_)
    (va pa : Nat) :
    (kalloc.length < 3 ∧ ∃ stop, ∀ fuel,
      uvmMapLoop pgdir va end_ (fuel + 1) p pa mem kalloc = some (.error stop)) ∨
    ∃ mem' kalloc', Mapped mem mem' pgdir va (pteAddress pa ||| pteUserData) ∧
      ∀ fuel, uvmMapLoop pgdir va end_ (fuel + 1) p pa mem kalloc =
        uvmMapLoop pgdir va end_ fuel ((p + pageSize) % 2 ^ 64) ((pa + pageSize) % 2 ^ 64) mem'
          kalloc' := by
  rcases myPgdirWalk_write htree hfresh hnodup va with
    ⟨hlen, stop, hstop⟩ | ⟨mem₁, used, kalloc', pte, -, hwalk, hwrite⟩
  · refine .inl ⟨hlen, stop, ?_⟩
    intro fuel
    rw [uvmMapLoop, if_pos hp]
    simp only [hstop]
  · refine .inr ⟨_, kalloc', (hwrite pa).1, ?_⟩
    intro fuel
    rw [uvmMapLoop, if_pos hp]
    simp only [hwalk]

/-- The loop ends after one iteration, except for the last page. -/
theorem uvmMapLoop_next (hlt : va < 2 ^ 64) (haligned : va % pageSize = 0) (hva : va ≠ lastPage)
    (pa fuel : Nat) :
    uvmMapLoop pgdir va va (fuel + 1) ((va + pageSize) % 2 ^ 64) pa mem kalloc =
      some (.ok (mem, 0)) := by
  have hnext : ¬ (va + pageSize) % 2 ^ 64 ≤ va := by
    unfold lastPage pageSize at *
    omega
  rw [uvmMapLoop, if_neg hnext]

/-- At the last page the loop counter wraps around, so it stays at or below the last page. -/
theorem uvmMapLoop_last {p pa fuel : Nat} (htree : IsTree mem pgdir)
    (ht : ∃ t, tableAt mem pgdir (path va) = some t) (hlt : p < 2 ^ 64)
    (haligned : p % pageSize = 0) :
    uvmMapLoop pgdir va lastPage fuel p pa mem kalloc = none := by
  induction fuel generalizing p pa mem with
  | zero => rfl
  | succ fuel ih =>
    obtain ⟨t, ht⟩ := ht
    have hle : p ≤ lastPage := by
      unfold lastPage pageSize at *
      omega
    have hmapped := mapped_update htree ht pa
    rw [uvmMapLoop, if_pos hle]
    simp only [myPgdirWalk_there true 3 ht]
    apply ih hmapped.tree hmapped.found
    · exact Nat.mod_lt _ (by decide)
    · unfold pageSize at *
      omega

/-! ## Histories of a page directory

The state of a directory after some calls is the map that takes a page to the latest call for it. -/

/-- The memories that calls of `my_uvm_map` lead to from a directory made by `my_pgdir_init`, with
the calls that have returned, the latest first. Between calls the rest of the kernel may write
everything but the tables. -/
inductive MapRun : Mem → Page → List MapCall → Prop
  | init (mem : Mem) (page : Page) : MapRun (myPgdirInit mem page).1 (myPgdirInit mem page).2 []
  | map {mem mem' : Mem} {pgdir : Page} {calls : List MapCall} {kalloc : List Page} {c : MapCall}
      {fuel : Nat} {ret : Int} :
      MapRun mem pgdir calls → c.OnePage → Supply mem pgdir kalloc →
      myUvmMap fuel mem kalloc pgdir c.va c.sz c.pa = some (.ok (mem', ret)) →
      MapRun mem' pgdir (c :: calls)
  | other {mem mem' : Mem} {pgdir : Page} {calls : List MapCall} :
      MapRun mem pgdir calls →
      (∀ p t, p.length ≤ 3 → tableAt mem pgdir p = some t →
        ∀ i, mem' (t.entry i) = mem (t.entry i)) →
      MapRun mem' pgdir calls

/-- The latest call that mapped a page. -/
def latest (calls : List MapCall) (page : Nat) : Option MapCall :=
  calls.find? fun c => pageOf c.va = page

/-- The page tables as a partial map from pages to entries: what the walk finds for an address is
the entry of the latest call for its page. -/
structure Refines (mem : Mem) (pgdir : Page) (calls : List MapCall) : Prop where
  tree : IsTree mem pgdir
  translate : ∀ va, translate mem pgdir va = (latest calls (pageOf va)).map MapCall.pte

/-- A new page directory has no tables, since `memset` has cleared every one of its entries. -/
theorem myPgdirInit_next (mem : Mem) (page : Page) (i : Fin 512) :
    nextTable (tables (myPgdirInit mem page).1 page i) = none := by
  have hzero : tables (myPgdirInit mem page).1 page i = 0 := by
    have hi := i.isLt
    apply if_pos
    unfold Page.entry pageSize
    omega
  rw [hzero]
  exact nextTable_zero

/-- A new directory is the empty map: the walk ends at its first entry, which is zero. -/
theorem Refines.init (mem : Mem) (page : Page) : Refines (myPgdirInit mem page).1 page [] := by
  have hempty := myPgdirInit_next mem page
  refine ⟨Radix.Tree.of_empty hempty, ?_⟩
  intro va
  have hnone : Radix.descend nextTable (tables (myPgdirInit mem page).1) page (path va) = none := by
    show (nextTable (tables (myPgdirInit mem page).1 page (ptx 3 va))).bind _ = none
    rw [hempty]
    rfl
  rw [Core.translate, Radix.lookup, hnone]
  rfl

/-- A call that has mapped its page updates the map there, and leaves it as it was everywhere else.
-/
theorem Refines.map {calls : List MapCall} {c : MapCall} (h : Refines mem pgdir calls)
    (hmapped : Mapped mem mem' pgdir c.va c.pte) : Refines mem' pgdir (c :: calls) := by
  refine ⟨hmapped.tree, ?_⟩
  intro va
  rw [hmapped.translate va, latest, List.find?_cons]
  by_cases hpage : pageOf va = pageOf c.va
  · rw [if_pos hpage, hpage, decide_eq_true rfl]
    rfl
  · rw [if_neg hpage, decide_eq_false (Ne.symm hpage)]
    exact h.translate va

/-- The memory differs in pages that are no tables of the directory. -/
def SameTables (mem mem' : Mem) (pgdir : Page) : Prop :=
  ∀ p t, p.length ≤ 3 → tableAt mem pgdir p = some t → tables mem' t = tables mem t

/-- It is enough that the entries of the tables are the same words. -/
theorem SameTables.of_entries (h : ∀ p t, p.length ≤ 3 → tableAt mem pgdir p = some t →
    ∀ i, mem' (t.entry i) = mem (t.entry i)) : SameTables mem mem' pgdir := by
  intro p t hp ht
  funext i
  exact h p t hp ht i

/-- What an address is translated to depends on the tables only. -/
theorem SameTables.translate (h : SameTables mem mem' pgdir) (va : Nat) :
    translate mem' pgdir va = translate mem pgdir va :=
  Radix.lookup_congr h (Nat.le_of_eq (pathFrom_length va 3)) (ptx 0 va)

/-- Writes elsewhere, by the rest of the kernel, keep the map. -/
theorem Refines.other {calls : List MapCall} (h : Refines mem pgdir calls)
    (hsame : SameTables mem mem' pgdir) : Refines mem' pgdir calls := by
  refine ⟨h.tree.congr hsame, ?_⟩
  intro va
  rw [hsame.translate va]
  exact h.translate va

/-- How a call ends. With fewer than three pages `kalloc` may panic; a call for the last page of the
address space does not end; any other has mapped its page. -/
theorem myUvmMap_cases {c : MapCall} (htree : IsTree mem pgdir) (hsupply : Supply mem pgdir kalloc)
    (hc : c.OnePage) :
    (kalloc.length < 3 ∧ ∃ stop, ∀ fuel,
      myUvmMap (fuel + 1) mem kalloc pgdir c.va c.sz c.pa = some (.error stop)) ∨
    (c.va = lastPage ∧ ∀ fuel, myUvmMap fuel mem kalloc pgdir c.va c.sz c.pa = none) ∨
    (c.va ≠ lastPage ∧ myUvmMap 1 mem kalloc pgdir c.va c.sz c.pa = none ∧
      ∃ mem', Mapped mem mem' pgdir c.va c.pte ∧
        ∀ fuel, myUvmMap (fuel + 2) mem kalloc pgdir c.va c.sz c.pa = some (.ok (mem', 0))) := by
  simp only [myUvmMap_onePage hc]
  rcases uvmMapLoop_first htree (fun f hf => (hsupply.unused f hf).fresh) hsupply.nodup
    (Nat.le_refl c.va) c.va c.pa with hpanic | ⟨mem', kalloc', hmapped, hloop⟩
  · exact .inl hpanic
  · by_cases hva : c.va = lastPage
    · refine .inr (.inl ⟨hva, ?_⟩)
      intro fuel
      cases fuel with
      | zero => rfl
      | succ fuel =>
        rw [hloop fuel, hva]
        rw [hva] at hmapped
        exact uvmMapLoop_last hmapped.tree hmapped.found (Nat.mod_lt _ (by decide)) (by decide)
    · refine .inr (.inr ⟨hva, hloop 0, mem', hmapped, ?_⟩)
      intro fuel
      rw [hloop (fuel + 1), uvmMapLoop_next hc.lt hc.aligned hva]

/-- A call that returned has mapped its page. It is read off the three ways a call can end. -/
theorem myUvmMap_mapped {c : MapCall} {fuel : Nat} {ret : Int} (htree : IsTree mem pgdir)
    (hsupply : Supply mem pgdir kalloc) (hc : c.OnePage)
    (hret : myUvmMap fuel mem kalloc pgdir c.va c.sz c.pa = some (.ok (mem', ret))) :
    Mapped mem mem' pgdir c.va c.pte := by
  rcases myUvmMap_cases htree hsupply hc with
    ⟨-, stop, hstop⟩ | ⟨-, hnever⟩ | ⟨-, hone, mem₂, hmapped, htwo⟩
  · cases fuel with
    | zero => cases hret
    | succ fuel =>
      rw [hstop fuel] at hret
      cases hret
  · rw [hnever fuel] at hret
    cases hret
  · match fuel with
    | 0 => cases hret
    | 1 =>
      rw [hone] at hret
      cases hret
    | fuel + 2 =>
      rw [htwo fuel] at hret
      cases hret
      exact hmapped

/-- The induction along a history. -/
theorem MapRun.refines {calls : List MapCall} (h : MapRun mem pgdir calls) :
    Refines mem pgdir calls := by
  induction h with
  | init mem page => exact Refines.init mem page
  | map _ hc hsupply hret ih => exact ih.map (myUvmMap_mapped ih.tree hsupply hc hret)
  | other _ hsame ih => exact ih.other (.of_entries hsame)

/-- What `my_pgdir_walk(pgdir, va, 0)` finds: the valid entry of the address, if there is one. This
ties the abstract map to the function of the code. -/
theorem walk_valid_iff (kalloc : List Page) (e : Nat) :
    (∃ ptr, myPgdirWalk va false 3 mem kalloc pgdir = .ok (mem, kalloc, some ptr) ∧
      mem ptr &&& pteValid ≠ 0 ∧ mem ptr = e) ↔ translate mem pgdir va = some e := by
  rw [myPgdirWalk_find, tableAt, Core.translate, Radix.lookup, path]
  cases hd : Radix.descend nextTable (tables mem) pgdir (pathFrom va 3) with
  | none =>
    constructor
    · intro h
      obtain ⟨ptr, h, -⟩ := h
      cases h
    · intro h
      cases h
  | some t =>
    show (∃ ptr, Except.ok (mem, kalloc, some (t.entry (ptx 0 va))) =
        Except.ok (mem, kalloc, some ptr) ∧ _)
      ↔ Option.filter _ (some (tables mem t (ptx 0 va))) = some e
    rw [Option.filter_eq_some_iff, isSome_nextTable]
    constructor
    · intro h
      obtain ⟨ptr, h, hvalid, he⟩ := h
      cases h
      exact ⟨congrArg some he, he ▸ hvalid⟩
    · intro h
      obtain ⟨h, hvalid⟩ := h
      cases h
      exact ⟨_, rfl, hvalid, rfl⟩

/-- For an address that is not translated, the walk returns `NULL` or points to an entry without
`PTE_VALID`. -/
theorem walk_invalid (h : translate mem pgdir va = none) (kalloc : List Page) :
    ∃ pte, myPgdirWalk va false 3 mem kalloc pgdir = .ok (mem, kalloc, pte) ∧
      ∀ ptr, pte = some ptr → mem ptr &&& pteValid = 0 := by
  refine ⟨_, myPgdirWalk_find va 3 mem kalloc pgdir, ?_⟩
  intro ptr hptr
  by_contra hvalid
  have htranslate := (walk_valid_iff kalloc (mem ptr)).mp
    ⟨ptr, by rw [myPgdirWalk_find, hptr], hvalid, rfl⟩
  rw [h] at htranslate
  cases htranslate

/-- **Page tables refine a partial map.** In every history of a page directory, `my_pgdir_walk`
without `alloc` returns a valid entry for exactly the pages that were mapped, with the address of
the latest call. A further call, with pages for its tables, returns exactly when it is not for the
last page of the address space, where its loop counter wraps around; it then changes the
translation of no other page. -/
theorem mapRun_refines_iff {calls : List MapCall} (h : MapRun mem pgdir calls) :
    (∀ va kalloc, (∃ ptr, myPgdirWalk va false 3 mem kalloc pgdir = .ok (mem, kalloc, some ptr) ∧
        mem ptr &&& pteValid ≠ 0) ↔ ∃ c ∈ calls, pageOf c.va = pageOf va) ∧
    (∀ va kalloc ptr, myPgdirWalk va false 3 mem kalloc pgdir = .ok (mem, kalloc, some ptr) →
      mem ptr &&& pteValid ≠ 0 →
      ∃ c, latest calls (pageOf va) = some c ∧ pteAddress (mem ptr) = pteAddress c.pa) ∧
    (∀ (c : MapCall) kalloc, c.OnePage → Supply mem pgdir kalloc → 3 ≤ kalloc.length →
      ((∃ fuel mem', myUvmMap fuel mem kalloc pgdir c.va c.sz c.pa = some (.ok (mem', 0)) ∧
          ∀ va, pageOf va ≠ pageOf c.va → translate mem' pgdir va = translate mem pgdir va) ↔
        c.va ≠ lastPage)) := by
  have href := h.refines
  -- What the walk finds is what the last call for the page has stored.
  have hentry : ∀ va kalloc ptr,
      myPgdirWalk va false 3 mem kalloc pgdir = .ok (mem, kalloc, some ptr) →
      mem ptr &&& pteValid ≠ 0 → ∃ c, latest calls (pageOf va) = some c ∧ c.pte = mem ptr := by
    intro va kalloc ptr hwalk hvalid
    have htranslate := (walk_valid_iff kalloc (mem ptr)).mp ⟨ptr, hwalk, hvalid, rfl⟩
    rw [href.translate va] at htranslate
    exact Option.map_eq_some_iff.mp htranslate
  refine ⟨?_, ?_, ?_⟩
  · intro va kalloc
    constructor
    · intro ⟨ptr, hwalk, hvalid⟩
      obtain ⟨c, hc, -⟩ := hentry va kalloc ptr hwalk hvalid
      have hpage := List.find?_some hc
      exact ⟨c, List.mem_of_find?_eq_some hc, of_decide_eq_true hpage⟩
    · intro ⟨c, hmem, hpage⟩
      have hsome : (latest calls (pageOf va)).isSome :=
        List.find?_isSome.mpr ⟨c, hmem, decide_eq_true hpage⟩
      obtain ⟨c', hc'⟩ := Option.isSome_iff_exists.mp hsome
      have htranslate : translate mem pgdir va = some c'.pte := by
        rw [href.translate va, hc']
        rfl
      obtain ⟨ptr, hwalk, hvalid, -⟩ := (walk_valid_iff kalloc c'.pte).mpr htranslate
      exact ⟨ptr, hwalk, hvalid⟩
  · intro va kalloc ptr hwalk hvalid
    obtain ⟨c, hc, hpte⟩ := hentry va kalloc ptr hwalk hvalid
    refine ⟨c, hc, ?_⟩
    rw [← hpte]
    exact (pteUserData_entry c.pa).2
  · intro c kalloc hc hsupply henough
    -- With three pages there are enough tables, so only the last page of all makes a difference.
    rcases myUvmMap_cases href.tree hsupply hc with
      ⟨hlen, -⟩ | ⟨hva, hnever⟩ | ⟨hva, -, mem', hmapped, htwo⟩
    · omega
    · refine iff_of_false ?_ (not_not.mpr hva)
      intro ⟨fuel, mem', hret, _⟩
      rw [hnever fuel] at hret
      cases hret
    · refine iff_of_true ⟨2, mem', htwo 0, ?_⟩ hva
      intro va hpage
      rw [hmapped.translate va, if_neg hpage]

/-- The page at `0x1000 * n` of the kernel's address space, for the examples. -/
def kernelPage (n : Fin 16) : Page where
  addr := kspaceMask + pageSize * n
  lt := by
    have := n.isLt
    unfold kspaceMask pageSize
    omega
  aligned := by
    unfold kspaceMask pageSize
    omega

/-- Three pages that an empty directory in a zero memory does not use. -/
theorem supply_of_empty :
    Supply (myPgdirInit (fun _ => 0) (kernelPage 0)).1 (kernelPage 0)
      [kernelPage 1, kernelPage 2, kernelPage 3] := by
  have hzero : ∀ a, (myPgdirInit (fun _ => 0) (kernelPage 0)).1 a = 0 := fun a => ite_self 0
  refine ⟨?_, by decide⟩
  intro f hf
  refine ⟨?_, fun i => hzero _⟩
  intro p _ hp
  cases p with
  | nil =>
    cases hp
    revert hf
    decide
  | cons i p =>
    rw [tableAt, Radix.descend, tables, hzero, nextTable_zero] at hp
    cases hp

/-- A directory in which one page has been mapped. The walk for an address in the middle of this
page ends at a valid entry. -/
theorem mapRun_refines_iff_one :
    ∃ mem, MapRun mem (kernelPage 0) [⟨0x1000, 1, 0x80000⟩] ∧
      ∃ ptr, myPgdirWalk 0x1abc false 3 mem [] (kernelPage 0) = .ok (mem, [], some ptr) ∧
        mem ptr &&& pteValid ≠ 0 := by
  have hcall : MapCall.OnePage ⟨0x1000, 1, 0x80000⟩ := by
    constructor <;> decide
  have hrun := MapRun.init (fun _ => 0) (kernelPage 0)
  obtain ⟨fuel, mem, hret, -⟩ :=
    ((mapRun_refines_iff hrun).2.2 ⟨0x1000, 1, 0x80000⟩ _ hcall supply_of_empty
      (by decide)).mpr (by decide)
  have hrun' := MapRun.map hrun hcall supply_of_empty hret
  refine ⟨mem, hrun', ?_⟩
  exact ((mapRun_refines_iff hrun').1 0x1abc []).mpr ⟨_, List.mem_singleton_self _, by decide⟩

/-- Mapping the last page of the address space into an empty directory does not return. -/
theorem myUvmMap_last_page_loops :
    ¬ ∃ fuel r, myUvmMap fuel (myPgdirInit (fun _ => 0) (kernelPage 0)).1
      [kernelPage 1, kernelPage 2, kernelPage 3] (kernelPage 0) 0xfffffffffffff000 1 0x80000 =
        some r := by
  have hcall : MapCall.OnePage ⟨0xfffffffffffff000, 1, 0x80000⟩ := by
    constructor <;> decide
  intro ⟨fuel, r, hret⟩
  rcases myUvmMap_cases (Refines.init _ _).tree supply_of_empty hcall with
    ⟨hlen, -⟩ | ⟨-, hnever⟩ | ⟨hva, -⟩
  · exact absurd hlen (by decide)
  · rw [hnever fuel] at hret
    cases hret
  · exact hva rfl

end KernelAarch64.Core
