import KernelAarch64.Core.VirtualMemory.Built
import KernelAarch64.Core.VirtualMemory.Free
import KernelAarch64.Core.VirtualMemory.Range
import KernelAarch64.Lib.Steps

/-!
# Programs and their memory

`spawn_init_process` and the functions like it give a program a page directory (`pgdir_init`), pages
(`kalloc`) with its code (`memcpy`), and map them (`uvm_map`). Before a scheduler runs the program,
`uvm_switch` sets `ttbr0_el1` to its directory, so that each word it loads or stores is one that the
memory management unit finds there.

The programs share the pool and the memory, which holds the directories, too: a store of a program
changes the memory that the next translations of all programs are made from.

`Inv` is the invariant, relative to an assignment of uses to the pages (`Owner`): the pool knows
which pages are free, the tables of each program are its own, and the pages mapped for it are its
own too. `Inv.step` keeps it, with a lemma for each kind of step, and says at once that a step
leaves the words of the pages of programs that it does not write. `Inv.reach_eq` is what the
invariant means for a program: it gets at the pages of its calls. The results are in
`Core.AddressSpaces.Isolation` and `Core.Proc.Load`.

Two conditions are needed. Nothing is given back to the pool, as in the steps here, and the pages of
the pool are clean at first (`CleanPool`), because a page that becomes a table is not cleared.
-/

namespace KernelAarch64.Core

open KernelAarch64.Lib

/-- Programs `ι` with page directories, in the memory that the kernel sees. `calls` are the calls of
`uvm_map` for each program, the latest first: what a program should get at is read off them. -/
structure AddressSpaces (ι : Type) where
  mem : Mem
  pool : Pool
  /-- Pages of the kernel: stacks of processes, and objects. -/
  kernel : List Page
  pgdir : ι → Option Page
  /-- Pages from `kalloc` for the code of a program that are not mapped yet. -/
  held : ι → List Page
  calls : ι → List PageCall

/-- What may happen next: one of the steps by which a program is set up, a store of a running
program, or something that the rest of the kernel does. -/
inductive SpaceAct (ι : Type)
  /-- `p->pgdir = pgdir_init()` -/
  | init (i : ι)
  /-- `PagePtr = kalloc()` -/
  | kalloc (i : ι)
  /-- `uvm_map(p->pgdir, va, sz, K2P(PagePtr))` -/
  | map (i : ι) (c : PageCall)
  /-- `memcpy(PagePtr, ...)`, a word of it. -/
  | copy (i : ι) (page : Page) (k : Fin 512) (w : Nat)
  /-- The program stores a word. -/
  | store (i : ι) (va w : Nat)
  /-- `kalloc()` for the kernel. -/
  | kernelAlloc
  /-- The kernel stores a word somewhere else. -/
  | kernelStore (a w : Nat)

/-- The page belongs to the pool, handed out or not. -/
def Pool.Has (p : Pool) (address : Nat) : Prop :=
  ∃ k < p.poolnumend, address = p.pagestart + pageSize * k

namespace KernelPt

/-- The pages of the tables. -/
def pages (t : KernelPt) : List Page := [t.level3, t.level2, t.root]

end KernelPt

namespace AddressSpaces

variable {ι : Type}

/-- The physical address that a program gets at with an address: its own directory is in `TTBR0`,
`kernel_pt` is in `TTBR1`, and the entry must admit EL0. -/
def reach (t : KernelPt) (s : AddressSpaces ι) (i : ι) (va : Nat) : Option Nat :=
  (s.pgdir i).bind fun d =>
    ((mmu s.mem (k2p d.addr) (k2p t.root.addr) va).filter Translation.user).map Translation.pa

/-- The word that a program loads; `none` is a fault. -/
def load (t : KernelPt) (s : AddressSpaces ι) (i : ι) (va : Nat) : Option Nat :=
  (s.reach t i va).map fun pa => s.mem (p2k pa)

section

variable [DecidableEq ι]

/-- One step. A store of a program goes where the unit translates its address to; a store that
faults changes nothing. The calls of `kalloc` and `uvm_map` are those of the pool and of the page
tables. -/
def Step (t : KernelPt) (s : AddressSpaces ι) : SpaceAct ι → AddressSpaces ι → Prop
  | .init i, s' => s.pgdir i = none ∧ ∃ (f : Page) (p : Pool), s.pool.kalloc = .ok (f.addr, p) ∧
      s' = { s with
        mem := (myPgdirInit s.mem f).1
        pool := p
        pgdir := Function.update s.pgdir i (some (myPgdirInit s.mem f).2) }
  | .kalloc i, s' => ∃ (f : Page) (p : Pool), s.pool.kalloc = .ok (f.addr, p) ∧
      s' = { s with pool := p, held := Function.update s.held i (f :: s.held i) }
  | .map i c, s' => ∃ d used p fuel mem ret, s.pgdir i = some d ∧ s.pool.Gives used p ∧
      myUvmMapPages fuel s.mem used d c.va c.sz (k2p c.page.addr) = some (.ok (mem, [], ret)) ∧
      s' = { s with
        mem := mem
        pool := p
        held := Function.update s.held i ((s.held i).erase c.page)
        calls := Function.update s.calls i (c :: s.calls i) }
  | .copy _ page k w, s' => s' = { s with mem := Function.update s.mem (page.entry k) w }
  | .store i va w, s' => s' = match s.reach t i va with
      | some pa => { s with mem := Function.update s.mem (p2k pa) w }
      | none => s
  | .kernelAlloc, s' => ∃ (f : Page) (p : Pool), s.pool.kalloc = .ok (f.addr, p) ∧
      s' = { s with pool := p, kernel := f :: s.kernel }
  | .kernelStore a w, s' => s' = { s with mem := Function.update s.mem a w }

/-- What the kernel does: it maps pages that it has got for the program, each at one page of the
lower half, copies the code to pages of the program, and stores to pages that it has allocated for
itself or outside the pool, but not to `kernel_pt`. Programs store whole words anywhere. -/
def Allowed (t : KernelPt) (s : AddressSpaces ι) : SpaceAct ι → Prop
  | .map i c => c.SinglePage ∧ c.va < userTop ∧ c.page ∈ s.held i
  | .copy i page _ _ => page ∈ (s.calls i).map PageCall.page ++ s.held i
  | .store _ va _ => va % 8 = 0
  | .kernelStore a _ => (∃ f ∈ s.kernel, ∃ k, a = f.entry k) ∨
      ∀ f : Page, s.pool.Has f.addr ∨ f ∈ t.pages → ∀ k, a ≠ f.entry k
  | _ => True

/-- After `init_memory_manager` and `init_virtual_memory`: the pool lies behind the kernel, and no
program has got anything. -/
structure Boot (t : KernelPt) (s : AddressSpaces ι) : Prop where
  tables : t.In s.mem
  pool : ∃ start, s.pool = Pool.boot.poolInit start (p2k phystop) ∧ start % pageSize = 0 ∧
    start + pageSize ≤ p2k phystop ∧ ∀ f ∈ t.pages, f.addr + pageSize ≤ start
  kernel : s.kernel = []
  pgdir : ∀ i, s.pgdir i = none
  held : ∀ i, s.held i = []
  calls : ∀ i, s.calls i = []

/-- No page of the pool has an entry that is valid, as in a memory of zeros. Tables are not cleared
when `my_pgdir_walk` makes them, so that what is left in their pages would count. -/
def CleanPool (s : AddressSpaces ι) : Prop := ∀ f : Page, s.pool.Has f.addr → Clean s.mem f

/-- The states that the kernel and the programs lead to. No page is given back. -/
abbrev Run (t : KernelPt) : AddressSpaces ι → AddressSpaces ι → Prop := Steps (Step t) (Allowed t)

end

/-! ## Who uses a page

No page has two uses. The uses are not a part of the state; a step may give a use to pages that had
none. -/

/-- What a page is used for. This is not in the kernel's memory anywhere: it is the ghost state by
which the invariant keeps pages of different use apart. -/
inductive Owner (ι : Type)
  | free
  | kernel
  | table (i : ι)
  | data (i : ι)

/-- The pages in `fs` get a use. -/
def take (o : Page → Owner ι) (fs : List Page) (x : Owner ι) (f : Page) : Owner ι :=
  if f ∈ fs then x else o f

/-- The pool hands out the pages that are used: a page is free in the pool exactly if nobody uses
it. All its pages are within reach of the unit. -/
structure PoolInv (p : Pool) (o : Page → Owner ι) : Prop where
  size : 0 < p.poolnumend
  space : ∀ f : Page, p.Has f.addr → f.Linear
  free : ∀ f : Page, o f = .free ↔ ¬ p.Busy f.addr

/-- The tables of a program map the pages that `uvm_map` was called for, their entries above the
last tables are links, and the tables are pages that belong to this program. -/
structure SpaceInv (mem : Mem) (o : Page → Owner ι) (calls : List PageCall) (i : ι) (d : Page) :
    Prop where
  refines : Refines mem d (calls.map PageCall.toMapCall)
  links : TableLinks mem d
  owned : ∀ u, IsTable mem d u → o u = .table i

/-- The invariant, for what the pages are used for. Since the owner of a page is a function of the
page, a page of one program is none of another one, no table is a page of a program, and none of
these is a page of the kernel. Free pages are clean, so that one of them may become a table. -/
structure Inv (t : KernelPt) (s : AddressSpaces ι) (o : Page → Owner ι) : Prop where
  pool : PoolInv s.pool o
  tables : t.In s.mem
  apart : ∀ f ∈ t.pages, ¬ s.pool.Has f.addr
  clean : ∀ f : Page, s.pool.Has f.addr → o f = .free → Clean s.mem f
  space : ∀ i d, s.pgdir i = some d → SpaceInv s.mem o (s.calls i) i d
  unborn : ∀ i, s.pgdir i = none → s.calls i = []
  data : ∀ i, ∀ f ∈ (s.calls i).map PageCall.page ++ s.held i, o f = .data i
  nodup : ∀ i, ((s.calls i).map PageCall.page ++ s.held i).Nodup
  kernel : ∀ f ∈ s.kernel, o f = .kernel

variable {t : KernelPt} {s₀ s s' : AddressSpaces ι} {o o' : Page → Owner ι} {p p' : Pool}
  {f u d : Page} {i j : ι} {fs : List Page} {x : Owner ι} {calls : List PageCall}
  {mem mem' : Mem} {va w a : Nat}

theorem take_of_mem (h : f ∈ fs) : take o fs x f = x := if_pos h

theorem take_of_notMem (h : f ∉ fs) : take o fs x f = o f := if_neg h

/-- A page in use has been handed out. -/
theorem PoolInv.busy (h : PoolInv p o) (hf : o f ≠ .free) : p.Busy f.addr := by
  by_contra hbusy
  exact hf ((h.free f).mpr hbusy)

/-- A page in use is from the pool. -/
theorem PoolInv.has (h : PoolInv p o) (hf : o f ≠ .free) : p.Has f.addr := by
  obtain ⟨k, hk, haddr, -⟩ := h.busy hf
  exact ⟨k, hk, haddr⟩

/-- A page in use is within reach of the unit. -/
theorem PoolInv.kspace (h : PoolInv p o) (hf : o f ≠ .free) : f.Linear :=
  h.space _ (h.has hf)

/-- `kalloc` keeps the bounds of the pool. Only the list of free pages changes, whose first page is
handed out. -/
theorem kalloc_pool {address : Nat} (h : p.kalloc = .ok (address, p')) :
    p'.poolnumend = p.poolnumend ∧ p'.pagestart = p.pagestart := by
  obtain ⟨q, page, halloc⟩ : ∃ q page, p.poolAlloc 1 = (q, page) := ⟨_, _, rfl⟩
  have hq : q.poolnumend = p.poolnumend ∧ q.pagestart = p.pagestart := by
    rw [Pool.poolAlloc] at halloc
    split at halloc
    · cases halloc
      exact ⟨rfl, rfl⟩
    · cases halloc
      exact ⟨rfl, rfl⟩
  rw [Pool.kalloc, halloc] at h
  simp only at h
  split at h
  · cases h
  · cases h
    exact hq

/-- The same pages belong to the pool before and after. What belongs to it is a matter of its
bounds, which no allocation changes. -/
theorem gives_has (h : p.Gives fs p') (a : Nat) : p'.Has a ↔ p.Has a := by
  induction fs generalizing p with
  | nil =>
    cases h
    exact Iff.rfl
  | cons f fs ih =>
    obtain ⟨q, hkalloc, hrest⟩ := h
    obtain ⟨hend, hstart⟩ := kalloc_pool hkalloc
    rw [ih hrest, Pool.Has, Pool.Has, hend, hstart]

/-- Pages that `kalloc` returns have not been in use, and are used from then on. -/
theorem PoolInv.gives (h : PoolInv p o) (hgives : p.Gives fs p') (hx : x ≠ .free) :
    PoolInv p' (take o fs x) ∧ fs.Nodup ∧ (∀ f ∈ fs, o f = .free) ∧ ∀ f ∈ fs, p.Has f.addr := by
  obtain ⟨hsize, hnodup, hnew, hbusy⟩ := hgives.spec h.size
  have hfree : ∀ f, take o fs x f = .free ↔ ¬ p'.Busy f.addr := by
    intro f
    rw [hbusy f, not_or, ← h.free f]
    by_cases hf : f ∈ fs
    · rw [take_of_mem hf]
      exact iff_of_false hx fun hn => hn.2 hf
    · rw [take_of_notMem hf]
      exact ⟨fun hn => ⟨hn, hf⟩, And.left⟩
  refine ⟨⟨hsize, fun f hf => h.space f ((gives_has hgives _).mp hf), hfree⟩, hnodup, ?_, ?_⟩
  · intro f hf
    exact (h.free f).mpr (hnew f hf)
  · intro f hf
    obtain ⟨k, hk, haddr, -⟩ := (hbusy f).mpr (.inr hf)
    exact (gives_has hgives _).mp ⟨k, hk, haddr⟩

/-- What tables translate stays when the memory changes elsewhere. -/
theorem SpaceInv.keep (h : SpaceInv mem o calls i d)
    (hmem : ∀ u, o u = .table i → ∀ k, mem' (u.entry k) = mem (u.entry k))
    (howner : ∀ u, o u = .table i → o' u = .table i) : SpaceInv mem' o' calls i d := by
  have hsame : SameTables mem mem' d := by
    apply SameTables.of_entries
    intro q u hq hu k
    exact hmem u (h.owned u ⟨q, hq, hu⟩) k
  refine ⟨h.refines.other hsame, h.links.congr fun q u hq => hsame q u (Nat.le_of_lt hq), ?_⟩
  rintro u ⟨q, hq, hu⟩
  rw [tableAt, Radix.descend_congr hsame hq] at hu
  exact howner u (h.owned u ⟨q, hq, hu⟩)

/-- The tables of the kernel stay when the memory changes elsewhere. -/
theorem In.keep (h : t.In mem)
    (hmem : ∀ u ∈ t.pages, ∀ k, mem' (u.entry k) = mem (u.entry k)) : t.In mem' := by
  refine ⟨?_, ?_, ?_, h.kspace⟩
  · intro k
    rw [hmem _ (by simp [KernelPt.pages])]
    exact h.level3 k
  · intro k
    rw [hmem _ (by simp [KernelPt.pages])]
    exact h.level2 k
  · intro k
    rw [hmem _ (by simp [KernelPt.pages])]
    exact h.root k

/-- A page stays clean when the memory changes elsewhere. -/
theorem Clean.keep (h : Clean mem f) (hmem : ∀ k, mem' (f.entry k) = mem (f.entry k)) :
    Clean mem' f := by
  intro k
  rw [hmem k]
  exact h k

/-! ## What the steps keep

A store of a program goes to a page that is mapped for it; a store of the kernel to a page that it
owns, or outside of the pool. In neither case is it a table. -/

/-- A store to a page of a program or of the kernel, or outside the pool, changes no table, and no
page that is free. -/
theorem Inv.write (h : Inv t s o)
    (ha : ∀ u k, a = u.entry k →
      (o u = .kernel ∨ ∃ i, o u = .data i) ∨ ¬ s.pool.Has u.addr ∧ u ∉ t.pages) (w : Nat) :
    Inv t { s with mem := Function.update s.mem a w } o := by
  have hkept : ∀ u, (∃ i, o u = .table i) ∨ o u = .free ∧ (s.pool.Has u.addr ∨ u ∈ t.pages) →
      ∀ k, Function.update s.mem a w (u.entry k) = s.mem (u.entry k) := by
    intro u hu k
    apply Function.update_of_ne
    intro heq
    rcases ha u k heq.symm with (hk | ⟨i, hd⟩) | ⟨hhas, hpt⟩
    · rcases hu with ⟨i, hu⟩ | ⟨hu, -⟩
      · exact nomatch hk.symm.trans hu
      · exact nomatch hk.symm.trans hu
    · rcases hu with ⟨j, hu⟩ | ⟨hu, -⟩
      · exact nomatch hd.symm.trans hu
      · exact nomatch hd.symm.trans hu
    · rcases hu with ⟨i, hu⟩ | ⟨-, hu⟩
      · exact hhas (h.pool.has (by rw [hu]; exact nofun))
      · exact hu.elim hhas hpt
  refine ⟨h.pool, ?_, h.apart, ?_, ?_, h.unborn, h.data, h.nodup, h.kernel⟩
  · apply In.keep h.tables
    intro u hu
    refine hkept u (.inr ⟨?_, .inr hu⟩)
    by_contra hfree
    exact h.apart u hu (h.pool.has hfree)
  · intro f hhas hfree
    exact Clean.keep (h.clean f hhas hfree) (hkept f (.inr ⟨hfree, .inl hhas⟩))
  · intro i d hd
    exact (h.space i d hd).keep (fun u hu => hkept u (.inl ⟨i, hu⟩)) fun u hu => hu

theorem Inv.write_page (h : Inv t s o) (hf : o f = .kernel ∨ ∃ i, o f = .data i) (k : Fin 512)
    (w : Nat) : Inv t { s with mem := Function.update s.mem (f.entry k) w } o := by
  apply h.write
  intro u l hentry
  rw [← (Page.entry_inj hentry).1]
  exact .inl hf

theorem take_of_used (hnew : ∀ f ∈ fs, o f = .free) (hu : o u ≠ .free) : take o fs x u = o u :=
  take_of_notMem fun hmem => hu (hnew u hmem)

/-- Pages are taken from the pool, and the memory stays as it is. All the steps that allocate begin
with this. -/
theorem Inv.alloc (h : Inv t s o) (hgives : s.pool.Gives fs p') (hx : x ≠ .free) :
    Inv t { s with pool := p' } (take o fs x) := by
  obtain ⟨hpool, -, hnew, -⟩ := h.pool.gives hgives hx
  refine ⟨hpool, h.tables, ?_, ?_, ?_, h.unborn, ?_, h.nodup, ?_⟩
  · intro f hf hhas
    exact h.apart f hf ((gives_has hgives _).mp hhas)
  · intro f hhas hfree
    have hf : f ∉ fs := fun hf => hx ((take_of_mem hf).symm.trans hfree)
    exact h.clean f ((gives_has hgives _).mp hhas) ((take_of_notMem hf).symm.trans hfree)
  · intro i d hd
    refine (h.space i d hd).keep (fun _ _ _ => rfl) ?_
    intro u hu
    rw [take_of_used hnew (by rw [hu]; exact nofun)]
    exact hu
  · intro i f hf
    rw [take_of_used hnew (by rw [h.data i f hf]; exact nofun)]
    exact h.data i f hf
  · intro f hf
    rw [take_of_used hnew (by rw [h.kernel f hf]; exact nofun)]
    exact h.kernel f hf

/-- `memset` reaches no other page: the 4096 bytes that it clears are those of the new directory,
whose frame is aligned. -/
theorem myPgdirInit_of_ne (hu : u ≠ f) (k : Fin 512) :
    (myPgdirInit mem f).1 (u.entry k) = mem (u.entry k) := by
  apply if_neg
  rintro ⟨hle, hlt⟩
  apply hu
  have hk := k.isLt
  have hu' := u.aligned
  have hf' := f.aligned
  apply Page.ext
  unfold Page.entry at hle hlt
  unfold pageSize at *
  omega

/-- A directory made by `my_pgdir_init`. -/
theorem SpaceInv.init (hf : o f = .table i) : SpaceInv (myPgdirInit mem f).1 o [] i f := by
  refine ⟨Refines.init mem f, .of_empty (myPgdirInit_next mem f), ?_⟩
  rintro u ⟨q, hq, hu⟩
  have huf := (TableInv.init mem f).tables q u hq hu
  rw [List.mem_singleton] at huf
  rw [huf]
  exact hf

/-- A page for the kernel. It was free, so that it is no page of a program and no table. -/
theorem Inv.kernelAlloc (h : Inv t s o) (hkalloc : s.pool.kalloc = .ok (f.addr, p')) :
    Inv t { s with pool := p', kernel := f :: s.kernel } (take o [f] .kernel) := by
  have hgives : s.pool.Gives [f] p' := ⟨p', hkalloc, rfl⟩
  have halloc := h.alloc hgives (x := .kernel) nofun
  refine ⟨halloc.pool, halloc.tables, halloc.apart, halloc.clean, halloc.space, halloc.unborn,
    halloc.data, halloc.nodup, ?_⟩
  intro g hg
  rcases List.mem_cons.mp hg with rfl | hg
  · exact take_of_mem (List.mem_singleton_self g)
  · exact halloc.kernel g hg

/-! ## What programs get at

The memory management unit walks the tables of the program for the lower half of the addresses. What
it finds there is what the last call of `uvm_map` for the page has put there (`Refines`). -/

/-- The page that was mapped last at a virtual page. -/
def pageAt (calls : List PageCall) (page : Nat) : Option Page :=
  (calls.find? fun c => pageOf c.va = page).map PageCall.page

/-- What is mapped was mapped by a call. -/
theorem mem_of_pageAt {page : Nat} (h : pageAt calls page = some f) :
    ∃ c ∈ calls, pageOf c.va = page ∧ c.page = f := by
  obtain ⟨c, hc, rfl⟩ := Option.map_eq_some_iff.mp h
  have hfound := List.find?_some hc
  exact ⟨c, List.mem_of_find?_eq_some hc, of_decide_eq_true hfound, rfl⟩

/-- Two virtual pages of a program are mapped to two pages. -/
theorem pageAt_inj {page page' : Nat} (hnodup : (calls.map PageCall.page).Nodup)
    (h : pageAt calls page = some f) (h' : pageAt calls page' = some f) : page = page' := by
  obtain ⟨c, hc, hpage, rfl⟩ := mem_of_pageAt h
  obtain ⟨c', hc', hpage', heq⟩ := mem_of_pageAt h'
  obtain rfl := List.inj_on_of_nodup_map hnodup hc' hc heq
  exact hpage.symm.trans hpage'

/-- A page that is mapped for a program belongs to it. -/
theorem Inv.data_pageAt {page : Nat} (h : Inv t s o) (hf : pageAt (s.calls i) page = some f) :
    o f = .data i := by
  obtain ⟨c, hc, -, rfl⟩ := mem_of_pageAt hf
  exact h.data i c.page (List.mem_append_left _ (List.mem_map_of_mem hc))

/-- A page of a program is within reach of the unit. -/
theorem Inv.data_kspace (h : Inv t s o) (hf : o f = .data i) : f.Linear := by
  apply h.pool.kspace
  rw [hf]
  intro hfree
  cases hfree

/-- A program gets at the pages that are mapped for it, and at nothing else. The upper half is the
kernel's, and in the lower half the unit agrees with the tables, which agree with the calls. -/
theorem Inv.reach_eq (h : Inv t s o) (hd : s.pgdir i = some d) (va : Nat) :
    s.reach t i va = if va < 2 ^ 48 then
      (pageAt (s.calls i) (pageOf va)).map fun f => k2p f.addr + va % pageSize else none := by
  have hspace := h.space i d hd
  rw [reach, hd, Option.bind_some]
  by_cases hva : va < 2 ^ 48
  · have hkspace : d.Linear := by
      apply h.pool.kspace
      rw [hspace.owned d ⟨[], Nat.zero_le _, rfl⟩]
      exact nofun
    have hlatest : latest ((s.calls i).map PageCall.toMapCall) (pageOf va) =
        ((s.calls i).find? fun c => pageOf c.va = pageOf va).map PageCall.toMapCall :=
      List.find?_map
    rw [if_pos hva, mmu_user hspace.links hkspace hva, hspace.refines.translate, hlatest, pageAt]
    cases hfind : (s.calls i).find? fun c => pageOf c.va = pageOf va with
    | none => rfl
    | some c =>
      have hf : o c.page = .data i := h.data_pageAt (by rw [pageAt, hfind]; rfl)
      have hlast : lastEntry va c.toMapCall.pte =
          some ⟨k2p c.page.addr + va % pageSize, true, true, mtNormal⟩ :=
        lastEntry_userData (h.data_kspace hf)
      rw [Option.map_some, Option.map_some, Option.bind_some, hlast]
      rfl
  · rw [if_neg hva, mmu_upper h.tables _ hva]
    rfl

/-- What a program gets at is in a page of its own. The walk of the MMU ends at the frame that the
calls of this program have mapped there, and the owner map gives that frame to no one else. -/
theorem Inv.reach_some {pa : Nat} (h : Inv t s o) (hpa : s.reach t i va = some pa) :
    ∃ f, va < 2 ^ 48 ∧ pageAt (s.calls i) (pageOf va) = some f ∧ o f = .data i ∧
      pa = k2p f.addr + va % pageSize := by
  cases hd : s.pgdir i with
  | none =>
    rw [reach, hd] at hpa
    cases hpa
  | some d =>
    rw [h.reach_eq hd] at hpa
    split at hpa
    · next hva =>
      obtain ⟨f, hf, rfl⟩ := Option.map_eq_some_iff.mp hpa
      exact ⟨f, hva, hf, h.data_pageAt hf, rfl⟩
    · cases hpa

/-- The place of the word at an address in its page. -/
def wordIndex (va : Nat) : Fin 512 := ⟨va % pageSize / 8, by unfold pageSize; omega⟩

/-- The word at a physical address, as the kernel sees it: the frame through the upper half, and the
offset of the address in its page. -/
theorem p2k_word (hf : f.Linear) (hva : va % 8 = 0) :
    p2k (k2p f.addr + va % pageSize) = f.entry (wordIndex va) := by
  have hlt := f.lt
  have haligned := f.aligned
  have hspace := hf.1
  unfold p2k k2p Page.entry wordIndex
  unfold kspaceMask pageSize at *
  simp only
  omega

/-- A load finds the word in the page that is mapped, and there is none where nothing is mapped. -/
theorem Inv.load_eq (h : Inv t s o) (hd : s.pgdir i = some d) (hva : va < 2 ^ 48)
    (hword : va % 8 = 0) :
    s.load t i va =
      (pageAt (s.calls i) (pageOf va)).map fun f => s.mem (f.entry (wordIndex va)) := by
  rw [load, h.reach_eq hd, if_pos hva, Option.map_map]
  cases hpage : pageAt (s.calls i) (pageOf va) with
  | none => rw [Option.map_none, Option.map_none]
  | some f =>
    have hf := h.data_pageAt hpage
    rw [Option.map_some, Option.map_some, Function.comp_apply,
      p2k_word (h.data_kspace hf) hword]

/-- The pages below `phystop` are within reach of the unit. -/
theorem linear_of_lt (hle : kspaceMask ≤ f.addr) (hlt : f.addr < p2k phystop) : f.Linear := by
  have htop : p2k phystop = kspaceMask + phystop := by decide
  rw [htop] at hlt
  refine ⟨hle, ?_⟩
  unfold k2p paEnd
  unfold phystop at hlt
  unfold kspaceMask at *
  omega

/-- After the boot nothing is in use. That the pool is clean is asked for here and nowhere else; it
is what the kernel does not ensure by itself. -/
theorem Boot.inv (h : Boot t s) (hclean : s.CleanPool) : Inv t s fun _ => .free := by
  obtain ⟨start, hpool, haligned, hend, hapart⟩ := h.pool
  have hstart : s.pool.pagestart = start := by rw [hpool]; rfl
  have hspace : kspaceMask ≤ start := by
    have hroot := (h.tables.kspace t.root (by simp)).1
    have hbelow := hapart t.root (by simp [KernelPt.pages])
    omega
  have hsize : 0 < s.pool.poolnumend := by
    rw [hpool]
    show 0 < min pagepoolSize ((p2k phystop - start) / pageSize)
    unfold pagepoolSize
    unfold pageSize at *
    omega
  have htop : s.pool.poolnumend ≤ (p2k phystop - start) / pageSize := by
    rw [hpool]
    exact Nat.min_le_right _ _
  refine ⟨⟨hsize, ?_, ?_⟩, h.tables, ?_, fun f hf _ => hclean f hf, ?_, fun i _ => h.calls i,
    ?_, ?_, ?_⟩
  -- The pages of the pool are in the range that the kernel maps.
  · rintro f ⟨k, hk, haddr⟩
    have hbelow : f.addr < p2k phystop := by
      unfold pageSize at *
      omega
    exact linear_of_lt (by omega) hbelow
  · intro f
    refine iff_of_true rfl ?_
    rintro ⟨k, -, -, hbusy⟩
    rw [hpool] at hbusy
    exact hbusy (Pool.poolInit_pagepool _ _ k)
  · rintro f hf ⟨k, -, haddr⟩
    have hbelow := hapart f hf
    unfold pageSize at *
    omega
  · intro i d hd
    exact nomatch (h.pgdir i).symm.trans hd
  · intro i f hf
    rw [h.calls i, h.held i] at hf
    cases hf
  · intro i
    rw [h.calls i, h.held i]
    exact List.nodup_nil
  · intro f hf
    rw [h.kernel] at hf
    cases hf

variable [DecidableEq ι]

/-- A page becomes the directory of a program, which maps nothing yet. The page was free, so that
clearing it disturbs nobody. -/
theorem Inv.init (h : Inv t s o) (hnone : s.pgdir i = none)
    (hkalloc : s.pool.kalloc = .ok (f.addr, p')) :
    Inv t { s with
      mem := (myPgdirInit s.mem f).1
      pool := p'
      pgdir := Function.update s.pgdir i (some f) } (take o [f] (.table i)) := by
  have hgives : s.pool.Gives [f] p' := ⟨p', hkalloc, rfl⟩
  have halloc := h.alloc hgives (x := .table i) nofun
  obtain ⟨-, -, hnew, hhas⟩ := h.pool.gives hgives (x := .table i) nofun
  -- The page is one that was free, so no table and no data of a program is on it.
  have hf : o f = .free := hnew f (List.mem_singleton_self f)
  have hself : take o [f] (.table i) f = .table i := take_of_mem (List.mem_singleton_self f)
  refine ⟨halloc.pool, ?_, halloc.apart, ?_, ?_, ?_, halloc.data, halloc.nodup, halloc.kernel⟩
  · apply In.keep h.tables
    intro u hu k
    apply myPgdirInit_of_ne
    rintro rfl
    exact h.apart u hu (hhas u (List.mem_singleton_self u))
  · intro g hghas hgfree
    apply Clean.keep (halloc.clean g hghas hgfree)
    intro k
    apply myPgdirInit_of_ne
    rintro rfl
    exact nomatch hself.symm.trans hgfree
  · intro j d hd
    simp only at hd
    by_cases hj : j = i
    · subst hj
      rw [Function.update_self] at hd
      cases hd
      rw [h.unborn j hnone]
      exact .init hself
    · rw [Function.update_of_ne hj] at hd
      refine (halloc.space j d hd).keep ?_ fun u hu => hu
      intro u hu k
      apply myPgdirInit_of_ne
      rintro rfl
      rw [hself] at hu
      cases hu
      exact hj rfl
  · intro j hj
    simp only at hj
    by_cases hji : j = i
    · subst hji
      rw [Function.update_self] at hj
      cases hj
    · rw [Function.update_of_ne hji] at hj
      exact h.unborn j hj

/-- A page for the code of a program. It was free, so it is neither a table nor a page of another
program. -/
theorem Inv.kalloc (h : Inv t s o) (hkalloc : s.pool.kalloc = .ok (f.addr, p')) :
    Inv t { s with pool := p', held := Function.update s.held i (f :: s.held i) }
      (take o [f] (.data i)) := by
  have hgives : s.pool.Gives [f] p' := ⟨p', hkalloc, rfl⟩
  have halloc := h.alloc hgives (x := .data i) nofun
  obtain ⟨-, -, hnew, -⟩ := h.pool.gives hgives (x := .data i) nofun
  have hf : o f = .free := hnew f (List.mem_singleton_self f)
  refine ⟨halloc.pool, halloc.tables, halloc.apart, halloc.clean, halloc.space, halloc.unborn,
    ?_, ?_, halloc.kernel⟩
  · intro j g hg
    by_cases hj : j = i
    · subst hj
      simp only [Function.update_self, List.mem_append, List.mem_cons] at hg
      rcases hg with hg | rfl | hg
      · exact halloc.data j g (List.mem_append_left _ hg)
      · exact take_of_mem (List.mem_singleton_self g)
      · exact halloc.data j g (List.mem_append_right _ hg)
    · simp only [Function.update_of_ne hj] at hg
      exact halloc.data j g hg
  · intro j
    by_cases hj : j = i
    · subst hj
      simp only [Function.update_self]
      rw [List.nodup_middle, List.nodup_cons]
      refine ⟨?_, h.nodup j⟩
      intro hmem
      exact nomatch hf.symm.trans (h.data j f hmem)
    · simp only [Function.update_of_ne hj]
      exact h.nodup j

omit [DecidableEq ι] in
/-- Pages from the pool are fit to become tables of a program. -/
theorem Inv.fresh {used : List Page} (h : Inv t s o) (hd : s.pgdir i = some d)
    (hgives : s.pool.Gives used p') : ∀ f ∈ used, IsFresh s.mem d f := by
  obtain ⟨-, -, hnew, hhas⟩ := h.pool.gives hgives (x := .table i) nofun
  intro f hf
  apply (h.clean f (hhas f hf) (hnew f hf)).isFresh
  intro q hq hreach
  exact nomatch (hnew f hf).symm.trans ((h.space i d hd).owned f ⟨q, hq, hreach⟩)

/-- `uvm_map` on a page of a program makes the tables that are missing, from `used`, and writes the
entry of the page. -/
structure PageMapped (s : AddressSpaces ι) (o : Page → Owner ι) (i : ι) (d : Page) (c : PageCall)
    (used : List Page) (mem' : Mem) : Prop where
  refines : Refines mem' d ((c :: s.calls i).map PageCall.toMapCall)
  links : TableLinks mem' d
  owned : ∀ u, IsTable mem' d u → take o used (.table i) u = .table i
  /-- Nothing else is written. -/
  frame : ∀ u, take o used (.table i) u ≠ .table i → ∀ k, mem' (u.entry k) = s.mem (u.entry k)

omit [DecidableEq ι] in
/-- What `uvm_map` returns for a page of its own is such a mapping. The pages that become tables
were free and clean, so no old entry shows up in them. -/
theorem Inv.mapped {c : PageCall} {used : List Page} {fuel : Nat} {ret : Int} (h : Inv t s o)
    (hd : s.pgdir i = some d) (hc : c.SinglePage) (hgives : s.pool.Gives used p')
    (hret : myUvmMapPages fuel s.mem used d c.va c.sz (k2p c.page.addr) =
      some (.ok (mem', [], ret))) : PageMapped s o i d c used mem' := by
  obtain ⟨-, hnodup, hnew, hhas⟩ := h.pool.gives hgives (x := .table i) nofun
  have hspace := h.space i d hd
  have hfresh := h.fresh hd hgives
  obtain ⟨used', hused, hgrown, hbuilt⟩ :=
    uvmMapLoopPages_built hspace.refines.tree hfresh hnodup hret
  rw [List.append_nil] at hused
  subst hused
  obtain ⟨-, ⟨hempty, -⟩ | ⟨-, used', -, -, hmapped⟩⟩ :=
    myUvmMapPages_cases hspace.refines.tree hfresh hnodup (k2p_lt _) hret
  · rw [hc.end_eq] at hempty
    exact absurd hempty (Nat.lt_irrefl _)
  rw [hc.pte] at hmapped
  have htable : ∀ u, IsTable s.mem d u → take o used (.table i) u = .table i := by
    intro u hu
    have hown := hspace.owned u hu
    rw [take_of_used hnew (by rw [hown]; exact nofun)]
    exact hown
  constructor
  case refines => exact hspace.refines.map hmapped
  case links =>
    apply hbuilt.links hspace.links
    exact fun f hf => h.pool.space f (hhas f hf)
  case owned =>
    rintro u ⟨q, hq, hu⟩
    rcases hgrown.tables q u hq hu with hold | hin
    · exact htable u ⟨q, hq, hold⟩
    · exact take_of_mem hin
  case frame =>
    intro u hu k
    by_contra hne
    obtain ⟨v, l, hentry, hv⟩ := hbuilt.frame _ hne
    obtain ⟨rfl, -⟩ := Page.entry_inj hentry
    rcases hv with hv | hv
    · exact hu (take_of_mem hv)
    · exact hu (htable u hv)

/-- The page that is mapped leaves the pages held for the program and joins those of its calls. -/
theorem held_perm {c : PageCall} {held : List Page} (hheld : c.page ∈ held) :
    ((c :: calls).map PageCall.page ++ held.erase c.page).Perm (calls.map PageCall.page ++ held) :=
  List.perm_middle.symm.trans ((List.perm_cons_erase hheld).symm.append_left _)

/-- A page of a program is mapped, and only its tables are written. For this program the map grows
by the call, for the others the tables are the same words as before. -/
theorem Inv.map {c : PageCall} {used : List Page} {fuel : Nat} {ret : Int} (h : Inv t s o)
    (hd : s.pgdir i = some d) (hc : c.SinglePage) (hheld : c.page ∈ s.held i)
    (hgives : s.pool.Gives used p')
    (hret : myUvmMapPages fuel s.mem used d c.va c.sz (k2p c.page.addr) =
      some (.ok (mem', [], ret))) :
    Inv t { s with
      mem := mem'
      pool := p'
      held := Function.update s.held i ((s.held i).erase c.page)
      calls := Function.update s.calls i (c :: s.calls i) } (take o used (.table i)) ∧
    ∀ u, take o used (.table i) u ≠ .table i → ∀ k, mem' (u.entry k) = s.mem (u.entry k) := by
  have halloc := h.alloc hgives (x := .table i) nofun
  obtain ⟨-, -, -, hhas⟩ := h.pool.gives hgives (x := .table i) nofun
  have hmapped := h.mapped hd hc hgives hret
  have hperm : ((c :: s.calls i).map PageCall.page ++ (s.held i).erase c.page).Perm
      ((s.calls i).map PageCall.page ++ s.held i) := held_perm hheld
  refine ⟨?_, hmapped.frame⟩
  constructor
  case pool => exact halloc.pool
  -- The pages of the kernel tables are not in the pool, so none of them was handed out.
  case tables =>
    apply In.keep h.tables
    intro u hu
    apply hmapped.frame
    have hfree : o u = .free := by
      by_contra hfree
      exact h.apart u hu (h.pool.has hfree)
    rw [take_of_notMem fun hmem => h.apart u hu (hhas u hmem), hfree]
    exact nofun
  case apart => exact halloc.apart
  -- A page that is still free was not written.
  case clean =>
    intro f hfhas hfree
    exact Clean.keep (halloc.clean f hfhas hfree) (hmapped.frame f (by rw [hfree]; exact nofun))
  -- In the tables of `i` the new entry, in those of the others nothing.
  case space =>
    intro j e he
    by_cases hj : j = i
    · subst hj
      obtain rfl : d = e := Option.some.inj (hd.symm.trans he)
      simp only [Function.update_self]
      exact ⟨hmapped.refines, hmapped.links, hmapped.owned⟩
    · simp only [Function.update_of_ne hj]
      refine (halloc.space j e he).keep ?_ fun u hu => hu
      intro u hu
      apply hmapped.frame
      rw [hu]
      exact fun heq => hj (Owner.table.inj heq)
  case unborn =>
    intro j hj
    by_cases hji : j = i
    · subst hji
      exact nomatch hd.symm.trans hj
    · simp only [Function.update_of_ne hji]
      exact h.unborn j hj
  case data =>
    intro j g hg
    by_cases hj : j = i
    · subst hj
      simp only [Function.update_self] at hg
      exact halloc.data j g (hperm.mem_iff.mp hg)
    · simp only [Function.update_of_ne hj] at hg
      exact halloc.data j g hg
  case nodup =>
    intro j
    by_cases hj : j = i
    · subst hj
      simp only [Function.update_self]
      exact hperm.nodup_iff.mpr (h.nodup j)
    · simp only [Function.update_of_ne hj]
      exact h.nodup j
  case kernel => exact halloc.kernel

/-- The steps that write a word of a page of a program: the kernel that copies to it, and any
program whose address leads there. -/
def Writes (t : KernelPt) (s : AddressSpaces ι) (f : Page) (k : Fin 512) : SpaceAct ι → Prop
  | .copy _ page l _ => page = f ∧ l = k
  | .store i va _ => ∃ pa, s.reach t i va = some pa ∧ p2k pa = f.entry k
  | _ => False

/-- A step keeps the invariant, the use of the pages of programs, and the words in them that it does
not write. There is a case for each kind of step; the store of a program is the one that needs
`Inv.reach_eq`, since it has to miss all tables. -/
theorem Inv.step {act : SpaceAct ι} (h : Inv t s o) (hok : s.Allowed t act)
    (hstep : s.Step t act s') :
    ∃ o', Inv t s' o' ∧ ∀ f i, o f = .data i → o' f = .data i ∧
      ∀ k, ¬s.Writes t f k act → s'.mem (f.entry k) = s.mem (f.entry k) := by
  have htake : ∀ fs p x, s.pool.Gives fs p → x ≠ .free → ∀ f i, o f = .data i →
      take o fs x f = .data i := by
    intro fs p x hgives hx f i hf
    obtain ⟨-, -, hnew, -⟩ := h.pool.gives hgives hx
    rw [take_of_used hnew (by rw [hf]; exact nofun)]
    exact hf
  cases act with
  | init i =>
    obtain ⟨hnone, f, p, hkalloc, rfl⟩ := hstep
    refine ⟨_, h.init hnone hkalloc, ?_⟩
    intro g j hg
    have hsame := htake [f] p (.table i) ⟨p, hkalloc, rfl⟩ nofun g j hg
    refine ⟨hsame, ?_⟩
    intro k _
    apply myPgdirInit_of_ne
    rintro rfl
    rw [take_of_mem (List.mem_singleton_self g)] at hsame
    cases hsame
  | kalloc i =>
    obtain ⟨f, p, hkalloc, rfl⟩ := hstep
    refine ⟨_, h.kalloc hkalloc, ?_⟩
    intro g j hg
    exact ⟨htake [f] p (.data i) ⟨p, hkalloc, rfl⟩ nofun g j hg, fun _ _ => rfl⟩
  | map i c =>
    obtain ⟨hc, -, hheld⟩ := hok
    obtain ⟨d, used, p, fuel, mem, ret, hd, hgives, hret, rfl⟩ := hstep
    obtain ⟨hinv, hframe⟩ := h.map hd hc hheld hgives hret
    refine ⟨_, hinv, ?_⟩
    intro g j hg
    have hsame := htake used p (.table i) hgives nofun g j hg
    exact ⟨hsame, fun k _ => hframe g (by rw [hsame]; exact nofun) k⟩
  | copy i f k w =>
    cases hstep
    refine ⟨o, h.write_page (.inr ⟨i, h.data i f hok⟩) k w, ?_⟩
    intro g j hg
    refine ⟨hg, ?_⟩
    intro l hl
    apply Function.update_of_ne
    intro hentry
    obtain ⟨rfl, rfl⟩ := Page.entry_inj hentry
    exact hl ⟨rfl, rfl⟩
  | store i va w =>
    cases hpa : s.reach t i va with
    | none =>
      simp only [Step, hpa] at hstep
      subst hstep
      exact ⟨o, h, fun g j hg => ⟨hg, fun _ _ => rfl⟩⟩
    | some pa =>
      simp only [Step, hpa] at hstep
      subst hstep
      refine ⟨o, ?_, fun g j hg => ⟨hg, ?_⟩⟩
      -- What the program reaches is a page of its data, not a table.
      · obtain ⟨f, -, -, hf, rfl⟩ := h.reach_some hpa
        rw [p2k_word (h.data_kspace hf) hok]
        exact h.write_page (.inr ⟨i, hf⟩) _ w
      · intro k hk
        have hne : g.entry k ≠ p2k pa := fun hentry => hk ⟨pa, hpa, hentry.symm⟩
        show Function.update s.mem (p2k pa) w (g.entry k) = s.mem (g.entry k)
        rw [Function.update_of_ne hne]
  | kernelAlloc =>
    obtain ⟨f, p, hkalloc, rfl⟩ := hstep
    refine ⟨_, h.kernelAlloc hkalloc, ?_⟩
    intro g j hg
    exact ⟨htake [f] p .kernel ⟨p, hkalloc, rfl⟩ nofun g j hg, fun _ _ => rfl⟩
  | kernelStore a w =>
    cases hstep
    refine ⟨o, ?_, ?_⟩
    -- The kernel stores to a page of its own or outside of the pool.
    · rcases hok with ⟨f, hf, k, rfl⟩ | hout
      · exact h.write_page (.inl (h.kernel f hf)) k w
      · apply h.write
        intro u k ha
        exact .inr ⟨fun hhas => hout u (.inl hhas) k ha, fun hpt => hout u (.inr hpt) k ha⟩
    · intro g j hg
      refine ⟨hg, ?_⟩
      intro l _
      apply Function.update_of_ne
      rintro rfl
      rcases hok with ⟨f, hf, k, hentry⟩ | hout
      · obtain ⟨rfl, -⟩ := Page.entry_inj hentry
        exact nomatch hg.symm.trans (h.kernel g hf)
      · exact hout g (.inl (h.pool.has (by rw [hg]; exact nofun))) l rfl

/-- The invariant holds along a run. -/
theorem Inv.run (h : Inv t s o) (hrun : Run t s s') : ∃ o', Inv t s' o' := by
  apply hrun.invariant (I := fun s => ∃ o, Inv t s o) ⟨o, h⟩
  rintro u v act ⟨o, hu⟩ hok hstep
  obtain ⟨o', hv, -⟩ := hu.step hok hstep
  exact ⟨o', hv⟩

end AddressSpaces

end KernelAarch64.Core
