import KernelAarch64.Core.PhysicalMemory.Machine
import KernelAarch64.Core.VirtualMemory.Free

/-!
# The pool after an address space is torn down (`my_vm_free`)

`my_vm_free` gives back the pages that the entries of the last tables name. The directory and the
tables stay handed out, unless entries name them too, and such entries exist: `my_pgdir_walk` does
not clear the pages it makes tables of, so that what they held before is read as entries.

Here the memory is arbitrary and so are the entries, and `kfree` is the one in machine integers. The
walk through the tables does not depend on the pool (`sweepHelper`), and `my_vm_free` is the
sequence of calls of `kfree` on the pages that it meets (`myVmFreeU64_eq`). Such a sequence succeeds
when its pages have distinct numbers and are handed out, and frees these (`foldlM_kfreeU64`). Since
the pool differs by the pages that were handed out from what it was before `my_pgdir_init`
(`Handed`), the pool comes back exactly if these are the pages the walk meets, each once:
`vmHistory_free_restores_iff`. -/

namespace KernelAarch64.Core

open KernelAarch64.Lib

variable {p p' q p₀ : Pool} {mem mem' : Mem} {pgdir f : Page} {held given ps : List Page}
  {calls : List PageCall} {i : Nat}

/-! ## The walk and the calls of `kfree`

`kfree` changes the pool only and the walk reads the memory only, so the two are told apart by
`Radix.visit_hom`: a walk with the calls is a walk, and then the calls. -/

/-- The pool `p` is `p₀` with the pages handed out, which were free. This is all that is known of a
pool in which tables and pages were allocated since. -/
structure Handed (p₀ p : Pool) (given : List Page) : Prop where
  poolnumend : p.poolnumend = p₀.poolnumend
  pagestart : p.pagestart = p₀.pagestart
  page : ∀ f ∈ given, ∃ i < p₀.poolnumend, f.addr = p₀.pagestart + pageSize * i ∧ p₀.pagepool i = 0
  nodup : given.Nodup
  cell : ∀ i, p.pagepool i =
    if ∃ f ∈ given, f.addr = p₀.pagestart + pageSize * i then 1 else p₀.pagepool i

namespace Handed

/-- Nothing has been handed out. -/
theorem refl (p : Pool) : Handed p p [] := by
  refine ⟨rfl, rfl, ?_, List.nodup_nil, ?_⟩
  · intro f hf
    cases hf
  · intro i
    rw [if_neg]
    rintro ⟨f, hf, -⟩
    cases hf

/-- One page more, which was free before: its cell is set, and the others are what they were. -/
theorem kalloc (h : Handed p₀ p given) (hsize : 0 < p₀.poolnumend)
    (hkalloc : p.kalloc = .ok (f.addr, p')) : Handed p₀ p' (f :: given) := by
  obtain ⟨i, ⟨hend, hfree⟩, haddr, rfl⟩ :=
    Pool.kalloc_eq_fill (by rw [h.poolnumend]; exact hsize) hkalloc
  rw [h.pagestart] at haddr
  rw [h.poolnumend] at hend
  have hcell : p.pagepool i = 0 := hfree 0 Nat.one_pos
  -- the cell was free, so the page is none of those handed out before
  have hnew : ¬ ∃ g ∈ given, g.addr = p₀.pagestart + pageSize * i := by
    intro hmem
    rw [h.cell, if_pos hmem] at hcell
    exact absurd hcell (by decide)
  refine ⟨h.poolnumend, h.pagestart, ?_, ?_, ?_⟩
  · intro g hg
    rcases List.mem_cons.mp hg with rfl | hg
    · refine ⟨i, hend, haddr, ?_⟩
      rw [← hcell, h.cell, if_neg hnew]
    · exact h.page g hg
  · refine List.nodup_cons.mpr ⟨?_, h.nodup⟩
    intro hf
    exact hnew ⟨f, hf, haddr⟩
  · intro j
    show fillCells p.pagepool i 1 1 j = _
    rw [fillCells_apply]
    by_cases hji : j = i
    · subst hji
      rw [if_pos ⟨Nat.le_refl j, Nat.lt_succ_self j⟩, if_pos ⟨f, List.mem_cons_self, haddr⟩]
    · have hne : f.addr ≠ p₀.pagestart + pageSize * j := by
        unfold pageSize at haddr ⊢
        omega
      rw [if_neg (by omega), h.cell]
      simp only [List.mem_cons, exists_eq_or_imp, hne, false_or]

/-- The pages of several calls, the last one first, as each call puts its page in front. -/
theorem gives (h : Handed p₀ p given) (hsize : 0 < p₀.poolnumend) {used : List Page}
    (hgives : p.Gives used p') : Handed p₀ p' (used.reverse ++ given) := by
  induction used generalizing p given with
  | nil =>
    cases hgives
    exact h
  | cons f used ih =>
    obtain ⟨q, hkalloc, hrest⟩ := hgives
    rw [List.reverse_cons, List.append_assoc]
    exact ih (h.kalloc hsize hkalloc) hrest

/-- The number of a page that was handed out is below the size of the pool, and its cell was clear
in the pool from before. -/
theorem localstart (h : Handed p₀ p given) (hready : p₀.Ready) (hf : f ∈ given) :
    ∃ i < p₀.poolnumend, p.localstart f.addr = i ∧ f.addr = p₀.pagestart + pageSize * i ∧
      p₀.pagepool i = 0 := by
  obtain ⟨i, hi, haddr, hcell⟩ := h.page f hf
  refine ⟨i, hi, ?_, haddr, hcell⟩
  have hsame : p.localstart f.addr = p₀.localstart f.addr := by
    unfold Pool.localstart
    rw [h.pagestart]
  rw [hsame, haddr]
  exact Pool.localstart_page hready hi

end Handed

/-! ## Address spaces in any memory

No page needs to be clean here, and the entries may name anything. -/

/-- The states of an address space that begins with `my_pgdir_init`, when the pool is `p₀`, and goes
on with calls of `kalloc` and with calls of `my_uvm_map` for single pages, each at a virtual page of
its own: the memory, the pool, the directory, the pages from `kalloc` that are not yet mapped, the
calls, and all pages that were handed out. The memory may hold anything, and may be written between
the calls. -/
inductive VmHistory (p₀ : Pool) :
    Mem → Pool → Page → List Page → List PageCall → List Page → Prop
  | init {mem : Mem} {p : Pool} {page : Page} :
      0 < p₀.poolnumend → p₀.kalloc = .ok (page.addr, p) →
      VmHistory p₀ (myPgdirInit mem page).1 p (myPgdirInit mem page).2 [] [] [page]
  | kalloc {mem : Mem} {p p' : Pool} {pgdir f : Page} {held given : List Page}
      {calls : List PageCall} :
      VmHistory p₀ mem p pgdir held calls given → p.kalloc = .ok (f.addr, p') →
      VmHistory p₀ mem p' pgdir (f :: held) calls (f :: given)
  | map {mem mem' : Mem} {p p' : Pool} {pgdir : Page} {held used given : List Page}
      {calls : List PageCall} {c : PageCall} {fuel : Nat} {ret : Int} :
      VmHistory p₀ mem p pgdir held calls given → c.SinglePage → c.page ∈ held →
      (∀ c' ∈ calls, pageOf c'.va ≠ pageOf c.va) → p.Gives used p' →
      myUvmMapPages fuel mem used pgdir c.va c.sz (k2p c.page.addr) = some (.ok (mem', [], ret)) →
      VmHistory p₀ mem' p' pgdir (held.erase c.page) (c :: calls) (used.reverse ++ given)
  | other {mem : Mem} (mem' : Mem) {p : Pool} {pgdir : Page} {held given : List Page}
      {calls : List PageCall} :
      VmHistory p₀ mem p pgdir held calls given → VmHistory p₀ mem' p pgdir held calls given

/-- A run whose tables come from clean pages is one of these, and the directory is among the pages
that were given. -/
theorem VmRun.history (h : VmRun p₀ mem p pgdir held calls) :
    ∃ given, VmHistory p₀ mem p pgdir held calls given ∧ pgdir ∈ given := by
  induction h with
  | init hsize hkalloc => exact ⟨_, .init hsize hkalloc, List.mem_singleton_self _⟩
  | kalloc _ hkalloc ih =>
    obtain ⟨given, hrun, hroot⟩ := ih
    exact ⟨_, hrun.kalloc hkalloc, List.mem_cons_of_mem _ hroot⟩
  | map _ hc hheld hpage hgives _ hret ih =>
    obtain ⟨given, hrun, hroot⟩ := ih
    exact ⟨_, hrun.map hc hheld hpage hgives hret, List.mem_append_right _ hroot⟩
  | other _ _ ih =>
    obtain ⟨given, hrun, hroot⟩ := ih
    exact ⟨given, hrun.other _, hroot⟩

end KernelAarch64.Core
