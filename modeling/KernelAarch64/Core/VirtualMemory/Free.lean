import KernelAarch64.Core.VirtualMemory.Tables
import KernelAarch64.Lib.Radix.Visit

/-!
# Freeing a page directory (`my_vm_free`)

`my_vm_free_helper` goes down the four levels of tables and gives every page that is mapped in a
last table back to the pool, clearing the entry. It frees no table: neither those that
`my_pgdir_walk` took from `kalloc` nor the page of the directory.

The pages that are mapped come from the pool here, and so do the tables, so that the pool says which
pages are in use.

The helper is the walk of `Lib.Radix.Visit`, and in a tree that walk is a loop over the entries that
were valid at the beginning (`myVmFree_eq_foldlM`). `VmInv` is the invariant of an address space
that is built from the pool: the entries are those of the calls, and tables and mapped pages are
different pages of the pool that are handed out. So the loop frees each mapped page once and nothing
else (`VmInv.myVmFree`), which is `vmRun_free_unmaps` after any sequence of calls.
-/

namespace KernelAarch64.Core

open KernelAarch64.Lib

/-- The memory and the page pool, with the pages that `kfree` was called on. This list is not in the
kernel; it is for the statements about what was freed, and in which order. -/
structure VmState where
  mem : Mem
  pool : Pool
  freed : List Page

section Helper

variable (kfree : Pool → Nat → Except Stop Pool)

/-- `*p = NULL; kfree(q);` for the entry `p` at an index of a last table. `kfree` is a parameter, as
there are two models of the pool. -/
def freeEntry (z : Page × Fin 512) (s : VmState) : Except Stop VmState := do
  let p := z.1.entry z.2
  let q := Page.ofPte (s.mem p)
  let mem := Function.update s.mem p 0
  let pool ← kfree s.pool q.addr
  return ⟨mem, pool, s.freed ++ [q]⟩

/-- `my_vm_free_helper(pgdir, index)`: it goes down where an entry is valid, and frees pages at the
last level only. No table is freed on the way back. -/
def myVmFreeHelper : (index : Nat) → Page → VmState → Except Stop VmState
  | 0, pgdir, s =>
    (List.finRange 512).foldlM (fun s x =>
      let p := pgdir.entry x
      if s.mem p &&& pteValid ≠ 0 then freeEntry kfree (pgdir, x) s else return s) s
  | index + 1, pgdir, s =>
    (List.finRange 512).foldlM (fun s x =>
      let p := pgdir.entry x
      if s.mem p &&& pteValid ≠ 0 then
        let q := Page.ofPte (s.mem p)
        myVmFreeHelper index q s
      else return s) s

end Helper

/-- `my_vm_free(pgdir)`, for tables whose entries name pages of the pool. -/
def myVmFree (pgdir : Page) (s : VmState) : Except Stop VmState :=
  myVmFreeHelper Pool.kfree 3 pgdir s

variable {mem mem' : Mem} {pgdir : Page} {va : Nat} {s : VmState}

/-! ## The entries that are freed

`freeEntry` clears an entry before it frees the page, so no later turn of the loop meets it again.
-/

/-- The helper is a walk through the tables, so what `Lib.Radix.Visit` says of walks is true of it.
-/
theorem myVmFreeHelper_eq_visit (kfree : Pool → Nat → Except Stop Pool) (index : Nat) (pgdir : Page)
    (s : VmState) :
    myVmFreeHelper kfree index pgdir s = Radix.visit nextTable (List.finRange 512)
      (fun s => tables s.mem) (freeEntry kfree) index pgdir s := by
  induction index generalizing pgdir s with
  | zero =>
    rw [myVmFreeHelper, Radix.visit]
    congr 1
    funext s x
    simp only [tables, isSome_nextTable]
    rfl
  | succ index ih =>
    rw [myVmFreeHelper, Radix.visit]
    congr 1
    funext s x
    by_cases hvalid : s.mem (pgdir.entry x) &&& pteValid ≠ 0
    · rw [tables, nextTable_valid hvalid]
      simp only [if_pos hvalid]
      exact ih _ s
    · rw [tables, nextTable_invalid hvalid]
      simp only [if_neg hvalid]
      rfl

/-- The valid entries in the last tables of a directory. -/
def mappedEntries (mem : Mem) (pgdir : Page) : List (Page × Fin 512) :=
  Radix.leaves nextTable (List.finRange 512) (tables mem) 3 pgdir

/-- Freeing an entry clears it and leaves the other entries alone. -/
theorem tables_freeEntry {kfree : Pool → Nat → Except Stop Pool} (z : Page × Fin 512) (s s' : VmState)
    (h : freeEntry kfree z s = .ok s') :
    tables s'.mem = Radix.set (tables s.mem) z.1 z.2 0 := by
  obtain ⟨pool, -, h⟩ := bind_eq_ok.mp h
  cases h
  exact tables_update s.mem z.1 z.2 0

/-- Freeing some entries clears them and no others. -/
theorem tables_foldlM_freeEntry {zs : List (Page × Fin 512)} {s' : VmState}
    (h : zs.foldlM (fun s z => freeEntry Pool.kfree z s) s = .ok s') (u : Page) (j : Fin 512) :
    tables s'.mem u j = if (u, j) ∈ zs then 0 else tables s.mem u j :=
  Radix.view_foldlM tables_freeEntry h u j

/-- `my_vm_free` frees the pages of the entries that are valid when it is called. -/
theorem myVmFree_eq_foldlM (htree : IsTree s.mem pgdir) :
    myVmFree pgdir s = (mappedEntries s.mem pgdir).foldlM (fun s z => freeEntry Pool.kfree z s) s := by
  rw [myVmFree, myVmFreeHelper_eq_visit]
  exact Radix.visit_eq_foldlM List.mem_finRange (List.nodup_finRange 512) tables_freeEntry htree

/-- The page that an entry maps. -/
def entryPage (mem : Mem) (z : Page × Fin 512) : Page := Page.ofPte (tables mem z.1 z.2)

/-- Pages that are handed out, each in one entry, are freed without a panic. The induction is on the
entries; a page that was freed is none of the others. -/
theorem foldlM_freeEntry {zs : List (Page × Fin 512)} (hnodup : (zs.map (entryPage s.mem)).Nodup)
    (hbusy : ∀ f ∈ zs.map (entryPage s.mem), s.pool.Busy f.addr) :
    ∃ s', zs.foldlM (fun s z => freeEntry Pool.kfree z s) s = .ok s' ∧
      s'.freed = s.freed ++ zs.map (entryPage s.mem) ∧
      ∀ f : Page, s'.pool.Busy f.addr ↔ s.pool.Busy f.addr ∧ f ∉ zs.map (entryPage s.mem) := by
  induction zs generalizing s with
  | nil => exact ⟨s, rfl, (List.append_nil _).symm, fun f => by simp⟩
  | cons z zs ih =>
    rw [List.map_cons] at hnodup hbusy
    obtain ⟨hz, hnodup⟩ := List.nodup_cons.mp hnodup
    obtain ⟨pool, hkfree, -, hpool⟩ :=
      Pool.kfree_of_busy (entryPage s.mem z).aligned (hbusy _ List.mem_cons_self)
    have hfree : freeEntry Pool.kfree z s = .ok ⟨Function.update s.mem (z.1.entry z.2) 0, pool,
        s.freed ++ [entryPage s.mem z]⟩ := by
      show s.pool.kfree (entryPage s.mem z).addr >>= _ = _
      rw [hkfree]
      rfl
    generalize hs₁ : VmState.mk (Function.update s.mem (z.1.entry z.2) 0) pool
      (s.freed ++ [entryPage s.mem z]) = s₁ at hfree
    -- the entries that are left are those of before
    have hrest : zs.map (entryPage s₁.mem) = zs.map (entryPage s.mem) := by
      apply List.map_congr_left
      intro y hy
      have hne : ¬ (y.1 = z.1 ∧ y.2 = z.2) := by
        rintro ⟨hfst, hsnd⟩
        exact hz (Prod.ext hfst hsnd ▸ List.mem_map_of_mem hy)
      rw [entryPage, tables_freeEntry z s s₁ hfree, Radix.set_of_ne hne, entryPage]
    have hpool₁ : s₁.pool = pool := by rw [← hs₁]
    have hfreed₁ : s₁.freed = s.freed ++ [entryPage s.mem z] := by rw [← hs₁]
    have hbusy₁ : ∀ f ∈ zs.map (entryPage s₁.mem), s₁.pool.Busy f.addr := by
      intro f hf
      rw [hrest] at hf
      rw [hpool₁, hpool]
      refine ⟨hbusy f (List.mem_cons_of_mem _ hf), ?_⟩
      intro heq
      exact hz (Page.ext heq ▸ hf)
    obtain ⟨s', hfold, hfreed, hpool'⟩ := ih (by rwa [hrest]) hbusy₁
    refine ⟨s', ?_, ?_, ?_⟩
    · rw [List.foldlM_cons, hfree]
      exact hfold
    · rw [hfreed, hfreed₁, hrest, List.append_assoc]
      rfl
    · intro f
      rw [hpool' f, hpool₁, hpool, hrest, List.map_cons, List.mem_cons, not_or, and_assoc]
      have haddr : f.addr ≠ (entryPage s.mem z).addr ↔ f ≠ entryPage s.mem z :=
        not_congr Page.ext_iff.symm
      rw [haddr]

/-! ## Entries and addresses

An entry of a last table stands for the addresses of one page, and for no others. -/

/-- Every path with an index at its end is that of an address. -/
theorem exists_va {p : List (Fin 512)} (hp : p.length = 3) (i : Fin 512) :
    ∃ va, path va = p ∧ ptx 0 va = i := by
  obtain ⟨a, b, c, rfl⟩ := List.length_eq_three.mp hp
  refine ⟨(((a.val * 512 + b.val) * 512 + c.val) * 512 + i.val) * 4096, ?_⟩
  have ha := a.isLt
  have hb := b.isLt
  have hc := c.isLt
  have hi := i.isLt
  simp only [path, pathFrom, ptx, List.cons.injEq, and_true, Fin.ext_iff]
  norm_num
  omega

/-- The page that was mapped comes back from its entry: `my_vm_free` computes it from the bits of
the address, without the flags. -/
theorem ofPte_userData (f : Page) : Page.ofPte (pteAddress (k2p f.addr) ||| pteUserData) = f := by
  obtain ⟨addr, hlt, haligned⟩ := f
  have hk2p : k2p addr % 4096 = 0 := (p2k_k2p hlt haligned).1
  have haddress : pteAddress (k2p addr) = k2p addr := by
    unfold pteAddress
    omega
  apply Page.ext
  show p2k (pteAddress (pteAddress (k2p addr) ||| pteUserData)) = addr
  rw [(pteUserData_entry _).2, haddress]
  unfold pageSize at haligned
  unfold p2k k2p kspaceMask
  omega

/-! ## Address spaces made of pages from the pool

The pool says which pages are in use. A page that `kalloc` returns was free, so it is none of the
tables and none of the pages that are mapped. -/

/-- Calls of `kalloc`, one after the other, return the pages of the list in its order. The walk
takes its tables this way. -/
def Pool.Gives (p : Pool) : List Page → Pool → Prop
  | [], p' => p' = p
  | f :: pages, p' => ∃ q, p.kalloc = .ok (f.addr, q) ∧ Pool.Gives q pages p'

/-- A call of `my_uvm_map` for a page from `kalloc`: the physical address is `K2P(page)`. -/
structure PageCall where
  va : Nat
  sz : Nat
  page : Page

namespace PageCall

/-- The arguments of the call. -/
def toMapCall (c : PageCall) : MapCall := ⟨c.va, c.sz, k2p c.page.addr⟩

/-- The range of the call lies in one page. This is more than the calls of the kernel, whose
addresses are aligned. -/
structure SinglePage (c : PageCall) : Prop where
  lt : c.va < 2 ^ 64
  sz_pos : 1 ≤ c.sz
  end_eq : uvmMapEnd c.va c.sz = roundDownPage c.va

end PageCall

/-- The states of an address space that begins with `my_pgdir_init`, when the pool is `p₀`, and goes
on with calls of `kalloc` and with calls of `my_uvm_map` for single pages: the memory, the pool, the
directory, the pages from `kalloc` that are not yet mapped, and the calls. Each page is mapped once,
at a virtual page of its own. The pages that become tables have no valid entry. Between calls
everything but the tables may be written. -/
inductive VmRun (p₀ : Pool) : Mem → Pool → Page → List Page → List PageCall → Prop
  | init {mem : Mem} {p : Pool} {page : Page} :
      0 < p₀.poolnumend → p₀.kalloc = .ok (page.addr, p) →
      VmRun p₀ (myPgdirInit mem page).1 p (myPgdirInit mem page).2 [] []
  | kalloc {mem : Mem} {p p' : Pool} {pgdir f : Page} {held : List Page} {calls : List PageCall} :
      VmRun p₀ mem p pgdir held calls → p.kalloc = .ok (f.addr, p') →
      VmRun p₀ mem p' pgdir (f :: held) calls
  | map {mem mem' : Mem} {p p' : Pool} {pgdir : Page} {held used : List Page}
      {calls : List PageCall} {c : PageCall} {fuel : Nat} {ret : Int} :
      VmRun p₀ mem p pgdir held calls → c.SinglePage → c.page ∈ held →
      (∀ c' ∈ calls, pageOf c'.va ≠ pageOf c.va) →
      p.Gives used p' → (∀ f ∈ used, Clean mem f) →
      myUvmMapPages fuel mem used pgdir c.va c.sz (k2p c.page.addr) = some (.ok (mem', [], ret)) →
      VmRun p₀ mem' p' pgdir (held.erase c.page) (c :: calls)
  | other {mem mem' : Mem} {p : Pool} {pgdir : Page} {held : List Page} {calls : List PageCall} :
      VmRun p₀ mem p pgdir held calls →
      (∀ q t, q.length ≤ 3 → tableAt mem pgdir q = some t →
        ∀ i, mem' (t.entry i) = mem (t.entry i)) →
      VmRun p₀ mem' p pgdir held calls

/-- The tables and the pages of an address space are handed out, and no page is a table. -/
structure VmInv (p₀ : Pool) (mem : Mem) (p : Pool) (pgdir : Page) (held : List Page)
    (calls : List PageCall) : Prop where
  size : 0 < p.poolnumend
  root : ¬ p₀.Busy pgdir.addr
  refines : Refines mem pgdir (calls.map PageCall.toMapCall)
  tables : ∀ q t, q.length ≤ 3 → tableAt mem pgdir q = some t → p.Busy t.addr
  busy : ∀ f ∈ calls.map PageCall.page ++ held, p.Busy f.addr
  leaf : ∀ f ∈ calls.map PageCall.page ++ held, ∀ q, q.length ≤ 3 → tableAt mem pgdir q ≠ some f
  nodup : (calls.map PageCall.page ++ held).Nodup
  distinct : (calls.map fun c => pageOf c.va).Nodup

variable {p₀ p p' : Pool} {held used : List Page} {calls : List PageCall} {c : PageCall} {f : Page}

/-- Pages that `kalloc` returns one after the other are new and distinct. -/
theorem Pool.Gives.spec {pages : List Page} (h : p.Gives pages p') (hsize : 0 < p.poolnumend) :
    0 < p'.poolnumend ∧ pages.Nodup ∧ (∀ f ∈ pages, ¬ p.Busy f.addr) ∧
      ∀ f : Page, p'.Busy f.addr ↔ p.Busy f.addr ∨ f ∈ pages := by
  induction pages generalizing p with
  | nil =>
    cases h
    exact ⟨hsize, List.nodup_nil, by simp, by simp⟩
  | cons f pages ih =>
    obtain ⟨q, hkalloc, hrest⟩ := h
    obtain ⟨hend, hnew, hbusy⟩ := Pool.kalloc_eq_ok hsize hkalloc
    obtain ⟨hsize', hnodup, hfree, hbusy'⟩ := ih hrest (by rwa [hend])
    refine ⟨hsize', List.nodup_cons.mpr ⟨?_, hnodup⟩, ?_, ?_⟩
    · intro hf
      exact hfree f hf ((hbusy _).mpr (.inr rfl))
    · intro g hg
      rcases List.mem_cons.mp hg with rfl | hg
      · exact hnew
      · exact fun hold => hfree g hg ((hbusy _).mpr (.inl hold))
    · intro g
      rw [hbusy', hbusy, List.mem_cons, or_assoc, Page.ext_iff]

/-- The page of the directory is handed out, and nothing is mapped. -/
theorem VmInv.init {page : Page} (mem : Mem) (hsize : 0 < p₀.poolnumend)
    (hkalloc : p₀.kalloc = .ok (page.addr, p)) :
    VmInv p₀ (myPgdirInit mem page).1 p page [] [] := by
  obtain ⟨hend, hnew, hbusy⟩ := Pool.kalloc_eq_ok hsize hkalloc
  have hinv := TableInv.init mem page
  refine ⟨by rwa [hend], hnew, Refines.init mem page, ?_, ?_, ?_, List.nodup_nil, List.nodup_nil⟩
  · intro q t hq ht
    have := List.mem_singleton.mp (hinv.tables q t hq ht)
    rw [this]
    exact (hbusy _).mpr (.inr rfl)
  · exact fun f hf => absurd hf List.not_mem_nil
  · exact fun f hf => absurd hf List.not_mem_nil

/-- A page that is handed out is new: it was free, so it is no table and was not held before. -/
theorem VmInv.kalloc (h : VmInv p₀ mem p pgdir held calls)
    (hkalloc : p.kalloc = .ok (f.addr, p')) : VmInv p₀ mem p' pgdir (f :: held) calls := by
  obtain ⟨hend, hnew, hbusy⟩ := Pool.kalloc_eq_ok h.size hkalloc
  have hmem : ∀ g, g ∈ calls.map PageCall.page ++ f :: held ↔
      g = f ∨ g ∈ calls.map PageCall.page ++ held := by
    intro g
    rw [List.mem_append, List.mem_cons, List.mem_append]
    tauto
  refine ⟨by rw [hend]; exact h.size, h.root, h.refines, ?_, ?_, ?_, ?_, h.distinct⟩
  · intro q t hq ht
    exact (hbusy _).mpr (.inl (h.tables q t hq ht))
  · intro g hg
    rcases (hmem g).mp hg with rfl | hg
    · exact (hbusy _).mpr (.inr rfl)
    · exact (hbusy _).mpr (.inl (h.busy g hg))
  · intro g hg q hq hreach
    rcases (hmem g).mp hg with rfl | hg
    · exact hnew (h.tables q g hq hreach)
    · exact h.leaf g hg q hq hreach
  · rw [List.nodup_middle, List.nodup_cons]
    exact ⟨fun hf => hnew (h.busy f hf), h.nodup⟩

/-- Physical addresses are 64-bit words. -/
theorem k2p_lt (addr : Nat) : k2p addr < 2 ^ 64 := Nat.mod_lt _ (by decide)

/-- The call of a single page writes the entry of the page. -/
theorem PageCall.SinglePage.pte (hc : c.SinglePage) :
    pteAddress ((k2p c.page.addr + (uvmMapEnd c.va c.sz - roundDownPage c.va)) % 2 ^ 64) |||
      pteUserData = c.toMapCall.pte := by
  rw [hc.end_eq, Nat.sub_self, Nat.add_zero, Nat.mod_eq_of_lt (k2p_lt _)]
  rfl

/-- A page that is held becomes a page that is mapped; the pages used on the way become tables. The
address was not mapped before, so no entry is overwritten and no page lost. -/
theorem VmInv.map {fuel : Nat} {ret : Int} (h : VmInv p₀ mem p pgdir held calls)
    (hc : c.SinglePage) (hheld : c.page ∈ held) (hpage : ∀ c' ∈ calls, pageOf c'.va ≠ pageOf c.va)
    (hgives : p.Gives used p') (hclean : ∀ f ∈ used, Clean mem f)
    (hret : myUvmMapPages fuel mem used pgdir c.va c.sz (k2p c.page.addr) =
      some (.ok (mem', [], ret))) :
    VmInv p₀ mem' p' pgdir (held.erase c.page) (c :: calls) := by
  obtain ⟨hsize, hnodup, hnew, hbusy⟩ := hgives.spec h.size
  have hfresh : ∀ f ∈ used, IsFresh mem pgdir f := by
    intro f hf
    apply (hclean f hf).isFresh
    intro q hq hreach
    exact hnew f hf (h.tables q f hq hreach)
  obtain ⟨-, ⟨hempty, -⟩ | ⟨-, used', hused, hgrown, hmapped⟩⟩ :=
    myUvmMapPages_cases h.refines.tree hfresh hnodup (k2p_lt _) hret
  · rw [hc.end_eq] at hempty
    exact absurd hempty (Nat.lt_irrefl _)
  rw [List.append_nil] at hused
  subst hused
  rw [hc.pte] at hmapped
  have hperm : ((c :: calls).map PageCall.page ++ held.erase c.page).Perm
      (calls.map PageCall.page ++ held) :=
    List.perm_middle.symm.trans ((List.perm_cons_erase hheld).symm.append_left _)
  refine ⟨hsize, h.root, h.refines.map hmapped, ?_, ?_, ?_, hperm.nodup_iff.mpr h.nodup, ?_⟩
  · intro q t hq ht
    rw [hbusy]
    exact (hgrown.tables q t hq ht).imp_left fun hold => h.tables q t hq hold
  · intro f hf
    exact (hbusy f).mpr (.inl (h.busy f (hperm.mem_iff.mp hf)))
  · intro f hf q hq hreach
    have hf' := hperm.mem_iff.mp hf
    rcases hgrown.tables q f hq hreach with hold | hused
    · exact h.leaf f hf' q hq hold
    · exact hnew f hused (h.busy f hf')
  · rw [List.map_cons, List.nodup_cons]
    refine ⟨?_, h.distinct⟩
    intro hmem
    obtain ⟨c', hc', heq⟩ := List.mem_map.mp hmem
    exact hpage c' hc' heq

/-- Writes outside of the tables keep the invariant. What a program stores to its own pages is of
this kind. -/
theorem VmInv.other (h : VmInv p₀ mem p pgdir held calls)
    (hsame : SameTables mem mem' pgdir) : VmInv p₀ mem' p pgdir held calls := by
  have hreach : ∀ q, q.length ≤ 3 → tableAt mem' pgdir q = tableAt mem pgdir q := by
    intro q hq
    exact Radix.descend_congr hsame hq
  refine ⟨h.size, h.root, h.refines.other hsame, ?_, h.busy, ?_, h.nodup, h.distinct⟩
  · intro q t hq ht
    rw [hreach q hq] at ht
    exact h.tables q t hq ht
  · intro f hf q hq
    rw [hreach q hq]
    exact h.leaf f hf q hq

/-- The induction along a run. -/
theorem VmRun.inv (h : VmRun p₀ mem p pgdir held calls) : VmInv p₀ mem p pgdir held calls := by
  induction h with
  | init hsize hkalloc => exact VmInv.init _ hsize hkalloc
  | kalloc _ hkalloc ih => exact ih.kalloc hkalloc
  | map _ hc hheld hpage hgives hclean hret ih => exact ih.map hc hheld hpage hgives hclean hret
  | other _ hsame ih => exact ih.other (.of_entries hsame)

/-! ## What is freed

The valid entries and the calls correspond to each other: a page is mapped by one call at most, and
a call maps one page. -/

/-- An address is translated by the entry of its last table, if all the tables on its path are there
and this entry is valid. -/
theorem translate_eq_some_iff {e : Nat} :
    translate mem pgdir va = some e ↔ ∃ t, tableAt mem pgdir (path va) = some t ∧
      tables mem t (ptx 0 va) = e ∧ (nextTable e).isSome := by
  rw [translate, Radix.lookup, Option.filter_eq_some_iff, Option.map_eq_some_iff]
  constructor
  · rintro ⟨⟨t, ht, he⟩, hsome⟩
    exact ⟨t, ht, he, hsome⟩
  · rintro ⟨t, ht, he, hsome⟩
    exact ⟨⟨t, ht, he⟩, hsome⟩

/-- A valid entry in a last table is that of a call, and names the page of this call. -/
theorem VmInv.call_of_entry (h : VmInv p₀ mem p pgdir held calls) {z : Page × Fin 512}
    (hz : z ∈ mappedEntries mem pgdir) :
    ∃ c ∈ calls, tableAt mem pgdir (path c.va) = some z.1 ∧ ptx 0 c.va = z.2 ∧
      entryPage mem z = c.page := by
  obtain ⟨q, hq, hreach, hsome⟩ := (Radix.mem_leaves List.mem_finRange).mp hz
  obtain ⟨va, rfl, hindex⟩ := exists_va hq z.2
  have htranslate : translate mem pgdir va = some (Core.tables mem z.1 z.2) :=
    translate_eq_some_iff.mpr ⟨z.1, hreach, by rw [hindex], hsome⟩
  rw [h.refines.translate, Option.map_eq_some_iff] at htranslate
  obtain ⟨mc, hlatest, hpte⟩ := htranslate
  obtain ⟨c, hc, rfl⟩ := List.mem_map.mp (List.mem_of_find?_eq_some hlatest)
  have hfound := List.find?_some hlatest
  have hpage : pageOf c.va = pageOf va := of_decide_eq_true hfound
  obtain ⟨hpath, hptx⟩ := (path_eq_iff c.va va).mpr hpage
  refine ⟨c, hc, by rw [hpath]; exact hreach, hptx.trans hindex, ?_⟩
  rw [entryPage, ← hpte]
  exact ofPte_userData c.page

/-- Every call has a valid entry in a last table. -/
theorem VmInv.entry_of_call (h : VmInv p₀ mem p pgdir held calls) (hc : c ∈ calls) :
    ∃ z ∈ mappedEntries mem pgdir, entryPage mem z = c.page := by
  have hlatest : (latest (calls.map PageCall.toMapCall) (pageOf c.va)).isSome :=
    List.find?_isSome.mpr ⟨c.toMapCall, List.mem_map_of_mem hc, decide_eq_true rfl⟩
  obtain ⟨mc, hlatest⟩ := Option.isSome_iff_exists.mp hlatest
  obtain ⟨c', hc', rfl⟩ := List.mem_map.mp (List.mem_of_find?_eq_some hlatest)
  have hfound := List.find?_some hlatest
  have hpage : pageOf c'.va = pageOf c.va := of_decide_eq_true hfound
  obtain rfl := List.inj_on_of_nodup_map h.distinct hc' hc hpage
  have htranslate : translate mem pgdir c'.va = some c'.toMapCall.pte := by
    rw [h.refines.translate, hlatest]
    rfl
  obtain ⟨t, ht, hentry, hsome⟩ := translate_eq_some_iff.mp htranslate
  refine ⟨(t, ptx 0 c'.va), ?_, ?_⟩
  · refine (Radix.mem_leaves List.mem_finRange).mpr ⟨path c'.va, rfl, ht, ?_⟩
    rw [hentry]
    exact hsome
  · rw [entryPage, hentry]
    exact ofPte_userData c'.page

/-- The pages of the valid entries are those of the calls, each once. Two entries with one page
would be two calls with one page, and a page is held once. -/
theorem VmInv.entryPages (h : VmInv p₀ mem p pgdir held calls) :
    ((mappedEntries mem pgdir).map (entryPage mem)).Nodup ∧
      ∀ f, f ∈ (mappedEntries mem pgdir).map (entryPage mem) ↔ ∃ c ∈ calls, c.page = f := by
  constructor
  · refine List.Nodup.map_on ?_
      (Radix.nodup_leaves List.mem_finRange (List.nodup_finRange 512) h.refines.tree)
    intro z hz z' hz' heq
    obtain ⟨c, hc, hreach, hindex, hpage⟩ := h.call_of_entry hz
    obtain ⟨c', hc', hreach', hindex', hpage'⟩ := h.call_of_entry hz'
    rw [hpage, hpage'] at heq
    have hnodup := (List.nodup_append.mp h.nodup).1
    obtain rfl := List.inj_on_of_nodup_map hnodup hc hc' heq
    rw [hreach] at hreach'
    exact Prod.ext (Option.some.inj hreach') (hindex.symm.trans hindex')
  · intro f
    rw [List.mem_map]
    constructor
    · rintro ⟨z, hz, rfl⟩
      obtain ⟨c, hc, -, -, hpage⟩ := h.call_of_entry hz
      exact ⟨c, hc, hpage.symm⟩
    · rintro ⟨c, hc, rfl⟩
      exact h.entry_of_call hc

/-- `my_vm_free` gives the pages that were mapped back to the pool, and clears their entries. -/
theorem VmInv.myVmFree (h : VmInv p₀ mem p pgdir held calls) :
    ∃ s, myVmFree pgdir ⟨mem, p, []⟩ = .ok s ∧
      s.freed = (mappedEntries mem pgdir).map (entryPage mem) ∧
      (∀ f : Page, s.pool.Busy f.addr ↔ p.Busy f.addr ∧ ∀ c ∈ calls, c.page ≠ f) ∧
      ∀ va, translate s.mem pgdir va = none := by
  obtain ⟨hnodup, hpages⟩ := h.entryPages
  have hbusy : ∀ f ∈ (mappedEntries mem pgdir).map (entryPage mem), p.Busy f.addr := by
    intro f hf
    obtain ⟨c, hc, rfl⟩ := (hpages f).mp hf
    exact h.busy _ (List.mem_append_left held (List.mem_map_of_mem hc))
  obtain ⟨s, hfold, hfreed, hpool⟩ := foldlM_freeEntry (s := ⟨mem, p, []⟩) hnodup hbusy
  refine ⟨s, ?_, hfreed.trans (List.nil_append _), ?_, ?_⟩
  · rw [myVmFree_eq_foldlM h.refines.tree]
    exact hfold
  · intro f
    rw [hpool f, hpages f]
    simp only [not_exists, not_and, ne_eq]
  · intro va
    have hcleared := tables_foldlM_freeEntry hfold
    exact Radix.lookup_cleared List.mem_finRange h.refines.tree nextTable_zero hcleared
      (pathFrom_length va 3) _

/-- After any sequence of calls that map single pages from `kalloc`, `my_vm_free` does not panic and
calls `kfree` once on each of the pages that are mapped and on no other page. Then no address has a
valid entry. -/
theorem vmRun_free_unmaps (h : VmRun p₀ mem p pgdir held calls) :
    ∃ s, myVmFree pgdir ⟨mem, p, []⟩ = .ok s ∧
      s.freed.Nodup ∧ (∀ f, f ∈ s.freed ↔ ∃ c ∈ calls, c.page = f) ∧
      ∀ va kalloc, ∃ pte, myPgdirWalk va false 3 s.mem kalloc pgdir = .ok (s.mem, kalloc, pte) ∧
        ∀ ptr, pte = some ptr → s.mem ptr &&& pteValid = 0 := by
  obtain ⟨s, hfree, hfreed, -, hnone⟩ := h.inv.myVmFree
  obtain ⟨hnodup, hpages⟩ := h.inv.entryPages
  rw [← hfreed] at hnodup hpages
  exact ⟨s, hfree, hnodup, hpages, fun va => walk_invalid (hnone va)⟩

/-- A pool of eight pages that are all free. -/
def smallPool : Pool := ⟨fun _ => 0, 8, kspaceMask⟩

/-- Page 0 becomes the directory and page 1 is mapped, with pages 2 to 4 for the tables. -/
theorem vmRun_onePage : ∃ mem p,
    VmRun smallPool mem p (kernelPage 0) [] [⟨0x1000, 1, kernelPage 1⟩] := by
  have hcall : PageCall.SinglePage ⟨0x1000, 1, kernelPage 1⟩ := by
    constructor <;> decide
  obtain ⟨p, p₁, hroot, p₂, hpage, hgives⟩ : ∃ p, smallPool.Gives
      [kernelPage 0, kernelPage 1, kernelPage 2, kernelPage 3, kernelPage 4] p :=
    ⟨_, _, rfl, _, rfl, _, rfl, _, rfl, _, rfl, rfl⟩
  have hheld : VmRun smallPool (myPgdirInit (fun _ => 0) (kernelPage 0)).1 p₂ (kernelPage 0)
      [kernelPage 1] [] := (VmRun.init (by decide) hroot).kalloc hpage
  obtain ⟨mem, hret⟩ : ∃ mem, myUvmMapPages 2 (myPgdirInit (fun _ => 0) (kernelPage 0)).1
      [kernelPage 2, kernelPage 3, kernelPage 4] (kernelPage 0) 0x1000 1
        (k2p (kernelPage 1).addr) = some (.ok (mem, [], 0)) := ⟨_, rfl⟩
  have hmap := hheld.map hcall (List.mem_singleton_self _) (by simp) hgives (fun f _ => clean_zero f) hret
  rw [List.erase_cons_head] at hmap
  exact ⟨mem, p, hmap⟩

/-- The page that was mapped is freed. -/
theorem vmRun_free_unmaps_one : ∃ mem p s,
    VmRun smallPool mem p (kernelPage 0) [] [⟨0x1000, 1, kernelPage 1⟩] ∧
      myVmFree (kernelPage 0) ⟨mem, p, []⟩ = .ok s ∧ kernelPage 1 ∈ s.freed := by
  obtain ⟨mem, p, hrun⟩ := vmRun_onePage
  obtain ⟨s, hfree, -, hfreed, -⟩ := vmRun_free_unmaps hrun
  exact ⟨mem, p, s, hrun, hfree, (hfreed _).mpr ⟨_, List.mem_singleton_self _, rfl⟩⟩

end KernelAarch64.Core
