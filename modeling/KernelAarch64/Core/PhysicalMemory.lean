import KernelAarch64.Core.Console
import Mathlib.Data.Finset.Image
import Mathlib.Data.Finset.SDiff
import Mathlib.Order.Interval.Finset.Nat

/-!
# The physical page pool (`core/physical_memory.c`)

One byte of `pagepool` for each page says whether the page is handed out. `pool_alloc` looks for
the first run of free pages that is long enough, jumping over the busy page that cut a run short;
`pool_free` gives back any pages that are handed out. Both run under `pmemlock` from beginning to
end, so a history of the pool is a sequence of calls.

`scanRun_spec` and `searchRun_first` are about the two loops of `pool_alloc`: what the outer loop
stops at is free, and the jump past a busy page passes no free run by. `Owned` is the invariant of a
history, with the pages that were returned and not given back; `Owned.mark` and `Owned.poolFree` are
its two steps. `reaches_page_ownership` states what follows for every history, and the last section
restates it for single pages, which is all that the rest of the kernel asks for.
-/

namespace KernelAarch64.Core

/-- `PAGE_SIZE` -/
abbrev pageSize : Nat := 4096

/-- `PAGEPOOLSIZE` -/
abbrev pagepoolSize : Nat := 200000

/-- The static variables of `physical_memory.c`. An address is a number, and `0` is `NULL`. -/
structure Pool where
  pagepool : Nat → UInt8
  poolnumend : Nat
  pagestart : Nat

/-- The static variables at boot. `poolnumend` has an initializer, which `pool_init` then makes
smaller. -/
def Pool.boot : Pool where
  pagepool := fun _ => 0
  poolnumend := pagepoolSize
  pagestart := 0

/-- `n` cells from `i` on set to `v`, in the order of the loops of `pool_alloc` and `pool_free`,
which go from the lowest index to the highest. -/
def fillCells (pagepool : Nat → UInt8) (i : Nat) (v : UInt8) : Nat → Nat → UInt8
  | 0 => pagepool
  | n + 1 => Function.update (fillCells pagepool i v n) (i + n) v

namespace Pool

/-- `pool_init(start, end)`, where `start ≤ end`. Memory that has more pages than `pagepool` has
cells is used in part only. -/
def poolInit (p : Pool) (start end_ : Nat) : Pool :=
  let pagenum := (end_ - start) / pageSize
  let poolnumend := min p.poolnumend pagenum
  { pagepool := fillCells p.pagepool 0 0 poolnumend
    poolnumend := poolnumend
    pagestart := start }

/-- The inner loop of `pool_alloc` with `rem` iterations to go: the values of `j` and `page` it
ends with. -/
def scanRun (p : Pool) (numpages i : Nat) : (rem j page : Nat) → Nat × Nat
  | 0, j, page => (j, page)
  | rem + 1, j, page =>
    if p.pagepool (i + j) ≠ 0 then (j, page)
    else
      let page := if j + 1 = numpages then p.pagestart + pageSize * i else page
      scanRun p numpages i rem (j + 1) page

/-- The outer loop of `pool_alloc` from `i` on: the index and the address it stops at. -/
def searchRun (p : Pool) (numpages : Nat) : (fuel i : Nat) → Option (Nat × Nat)
  | 0, _ => none
  | fuel + 1, i =>
    if i ≤ p.poolnumend - numpages then
      let (j, page) := p.scanRun numpages i numpages 0 0
      if page ≠ 0 then some (i, page)
      -- `i += j` in the body and `i++` of the loop
      else p.searchRun numpages fuel (i + j + 1)
    else none

/-- `pool_alloc(numpages)`, for `1 ≤ numpages ≤ poolnumend`: the pool afterwards and the address
returned. -/
def poolAlloc (p : Pool) (numpages : Nat) : Pool × Nat :=
  match p.searchRun numpages (p.poolnumend + 1) 0 with
  | none => (p, 0)
  | some (i, page) => ({ p with pagepool := fillCells p.pagepool i 1 numpages }, page)

/-- The loop of `pool_free` with `rem` iterations to go. A free cell is a panic, after the cells
before it were cleared already. -/
def freeCells (pagepool : Nat → UInt8) : (rem i : Nat) → Except Stop (Nat → UInt8)
  | 0, _ => .ok pagepool
  | rem + 1, i =>
    if pagepool i = 0 then .error (.panic "kmem: refree a free physical page.")
    else freeCells (Function.update pagepool i 0) rem (i + 1)

/-- `pool_free(page_address, numpages)`, for an address at or after `pagestart`. The address has to
be that of a page, and the last page has to lie in the pool. -/
def poolFree (p : Pool) (pageAddress numpages : Nat) : Except Stop Pool := do
  if pageAddress % pageSize ≠ 0 then
    .error (.panic "kmem: page address not aligned.\n")
  else
    let localstart := (pageAddress - p.pagestart) / pageSize
    kassert (localstart + numpages ≤ p.poolnumend) "localstart + numpages <= poolnumend"
    let pagepool ← freeCells p.pagepool numpages localstart
    return { p with pagepool := pagepool }

end Pool

/-! ## What the loops do

The induction is on the iterations that are left. The page address is taken in the last iteration of
the inner loop, so `page` says whether the loop has seen the whole run. -/

/-- The loops that set cells to a value set these and no others. -/
theorem fillCells_apply (pagepool : Nat → UInt8) (i : Nat) (v : UInt8) (n k : Nat) :
    fillCells pagepool i v n k = if i ≤ k ∧ k < i + n then v else pagepool k := by
  induction n with
  | zero =>
    have hk : ¬ (i ≤ k ∧ k < i + 0) := by omega
    rw [if_neg hk]
    rfl
  | succ n ih =>
    rw [fillCells]
    by_cases hk : k = i + n
    · subst hk
      rw [Function.update_self, if_pos (by omega)]
    · rw [Function.update_of_ne hk, ih]
      congr 1
      grind

namespace Pool

variable {p p' : Pool} {n i j page address : Nat}

/-- The inner loop counts the free cells from `i` on and takes the address when it has seen all of
them free. It stops at a busy cell, and then `page` is what it was, that is zero. -/
theorem scanRun_spec (p : Pool) (n i : Nat) {rem j : Nat} (page : Nat) (hrem : j + rem = n)
    (hfree : ∀ k < j, p.pagepool (i + k) = 0) :
    let r := p.scanRun n i rem j page
    (∀ k < r.1, p.pagepool (i + k) = 0) ∧
      (r.1 = n ∧ r.2 = (if rem = 0 then page else p.pagestart + pageSize * i) ∨
        r.1 < n ∧ p.pagepool (i + r.1) ≠ 0 ∧ r.2 = page) := by
  induction rem generalizing j page with
  | zero => exact ⟨hfree, .inl ⟨hrem, rfl⟩⟩
  | succ rem ih =>
    show let r := p.scanRun n i (rem + 1) j page; _
    rw [scanRun]
    by_cases hbusy : p.pagepool (i + j) ≠ 0
    · rw [if_pos hbusy]
      exact ⟨hfree, .inr ⟨by omega, hbusy, rfl⟩⟩
    · rw [if_neg hbusy]
      have hfree' : ∀ k < j + 1, p.pagepool (i + k) = 0 := by
        intro k hk
        by_cases hkj : k = j
        · subst hkj
          exact not_not.mp hbusy
        · exact hfree k (by omega)
      have h := ih (if j + 1 = n then p.pagestart + pageSize * i else page) (by omega) hfree'
      obtain ⟨hrun, hend⟩ := h
      refine ⟨hrun, ?_⟩
      rcases hend with ⟨hj, hpage⟩ | ⟨hj, hcell, hpage⟩
      · refine .inl ⟨hj, ?_⟩
        rw [hpage, if_neg (Nat.succ_ne_zero rem)]
        by_cases hz : rem = 0
        · rw [if_pos hz, if_pos (by omega)]
        · rw [if_neg hz]
      · refine .inr ⟨hj, hcell, ?_⟩
        -- the last free cell ends the loop, so a loop that breaks later has not seen it
        have hne : j + 1 ≠ n := by
          intro heq
          have hz : rem = 0 := by omega
          subst hz
          rw [scanRun] at hj
          exact absurd heq (Nat.ne_of_lt hj)
        rw [hpage, if_neg hne]

/-- The run of `n` cells from `i` on is free. -/
def Free (p : Pool) (n i : Nat) : Prop := i + n ≤ p.poolnumend ∧ ∀ k < n, p.pagepool (i + k) = 0

/-- What the outer loop stops at is a free run inside the pool. It goes on while `page` is zero, so
what it stops at has an address. -/
theorem searchRun_eq_some (hn : 0 < n) (hle : n ≤ p.poolnumend) {fuel i₀ : Nat}
    (h : p.searchRun n fuel i₀ = some (i, page)) :
    p.Free n i ∧ page = p.pagestart + pageSize * i ∧ page ≠ 0 := by
  induction fuel generalizing i₀ with
  | zero => cases h
  | succ fuel ih =>
    rw [searchRun] at h
    split at h
    · rename_i hi
      obtain ⟨hrun, hend⟩ := p.scanRun_spec n i₀ 0 (Nat.zero_add n) (by simp)
      simp only at h
      split at h
      · rename_i hpage
        cases h
        rcases hend with ⟨hj, hr⟩ | ⟨-, -, hr⟩
        · rw [if_neg (Nat.ne_of_gt hn)] at hr
          rw [hj] at hrun
          exact ⟨⟨by omega, hrun⟩, hr, hpage⟩
        · exact absurd hr hpage
      · exact ih h
    · cases h

/-- Unless page zero of the address space is in the pool, the outer loop passes no free run by:
jumping past a busy cell skips only runs that contain it. -/
theorem searchRun_first (hn : 0 < n) (hle : n ≤ p.poolnumend) (hstart : 0 < p.pagestart)
    (fuel i₀ : Nat) (hfuel : p.poolnumend < i₀ + fuel) {k : Nat} (hik : i₀ ≤ k)
    (hfree : p.Free n k) :
    ∃ i page, p.searchRun n fuel i₀ = some (i, page) ∧ i₀ ≤ i ∧ i ≤ k := by
  induction fuel generalizing i₀ with
  | zero =>
    have := hfree.1
    omega
  | succ fuel ih =>
    have hbound := hfree.1
    have hi : i₀ ≤ p.poolnumend - n := by omega
    rw [searchRun, if_pos hi]
    simp only
    obtain ⟨hrun, hend⟩ := p.scanRun_spec n i₀ 0 (Nat.zero_add n) (by simp)
    split
    · rename_i hpage
      exact ⟨_, _, rfl, Nat.le_refl _, hik⟩
    · rename_i hpage
      rcases hend with ⟨-, hr⟩ | ⟨hj, hcell, -⟩
      · rw [if_neg (Nat.ne_of_gt hn)] at hr
        omega
      · -- the free run at `k` does not contain the busy cell, so it starts after it
        have hk : i₀ + (p.scanRun n i₀ n 0 0).1 < k := by
          by_contra hnot
          apply hcell
          have hin := hfree.2 (i₀ + (p.scanRun n i₀ n 0 0).1 - k) (by omega)
          rwa [Nat.add_sub_cancel' (by omega)] at hin
        obtain ⟨i, page, hs, hlo, hhi⟩ := ih _ (by omega) hk
        exact ⟨i, page, hs, by omega, hhi⟩

/-- `pool_alloc` either fails and changes nothing, or marks the pages of a free run. -/
theorem poolAlloc_cases (hn : 0 < n) (hle : n ≤ p.poolnumend) (h : p.poolAlloc n = (p', page)) :
    (page = 0 ∧ p' = p) ∨
    (page ≠ 0 ∧ ∃ i, p.Free n i ∧ page = p.pagestart + pageSize * i ∧
      p' = { p with pagepool := fillCells p.pagepool i 1 n }) := by
  unfold poolAlloc at h
  split at h
  · cases h
    exact .inl ⟨rfl, rfl⟩
  · rename_i i page' hs
    cases h
    obtain ⟨hfree, haddr, hne⟩ := searchRun_eq_some hn hle hs
    exact .inr ⟨hne, i, hfree, haddr, rfl⟩

/-- First fit: `pool_alloc` fails only when no run of free pages is long enough, and returns the
lowest one otherwise. -/
theorem poolAlloc_first (hn : 0 < n) (hle : n ≤ p.poolnumend) (hstart : 0 < p.pagestart) {k : Nat}
    (hfree : p.Free n k) :
    ∃ i ≤ k, (p.poolAlloc n).2 = p.pagestart + pageSize * i := by
  obtain ⟨i, page, hs, -, hik⟩ :=
    searchRun_first hn hle hstart (p.poolnumend + 1) 0 (by omega) (Nat.zero_le k) hfree
  obtain ⟨-, haddr, -⟩ := searchRun_eq_some hn hle hs
  refine ⟨i, hik, ?_⟩
  simp only [poolAlloc, hs]
  exact haddr

/-- The loop of `pool_free` runs to its end over cells that are all busy, and clears these and no
others. The induction is on the iterations that are left. -/
theorem freeCells_of_busy {pagepool : Nat → UInt8} {rem i : Nat}
    (hbusy : ∀ k < rem, pagepool (i + k) ≠ 0) :
    ∃ cells, freeCells pagepool rem i = .ok cells ∧
      ∀ k, cells k = if i ≤ k ∧ k < i + rem then 0 else pagepool k := by
  induction rem generalizing pagepool i with
  | zero =>
    refine ⟨pagepool, rfl, fun k => ?_⟩
    rw [if_neg (by omega)]
  | succ rem ih =>
    have hhead : pagepool i ≠ 0 := hbusy 0 (Nat.succ_pos rem)
    have htail : ∀ k < rem, Function.update pagepool i 0 (i + 1 + k) ≠ 0 := by
      intro k hk
      rw [Function.update_of_ne (by omega), Nat.add_assoc, Nat.add_comm 1 k]
      exact hbusy (k + 1) (by omega)
    obtain ⟨cells, hok, hcells⟩ := ih htail
    refine ⟨cells, ?_, ?_⟩
    · rw [freeCells, if_neg hhead]
      exact hok
    · intro k
      rw [hcells k]
      by_cases hk : k = i
      · subst hk
        rw [if_neg (by omega), Function.update_self, if_pos (by omega)]
      · rw [Function.update_of_ne hk]
        congr 1
        grind

/-- The addresses of `n` pages from `address` on. -/
def pages (address n : Nat) : Finset Nat :=
  (Finset.range n).image fun k => address + pageSize * k

theorem mem_pages {a : Nat} : a ∈ pages address n ↔ ∃ k < n, address + pageSize * k = a := by
  simp [pages]

/-- Page `k` of a pool is among `n` pages from page `i` on by its number. -/
theorem page_mem_pages {start k : Nat} :
    start + pageSize * k ∈ pages (start + pageSize * i) n ↔ i ≤ k ∧ k < i + n := by
  rw [mem_pages]
  constructor
  · intro ⟨m, hm, heq⟩
    unfold pageSize at heq
    omega
  · intro ⟨hik, hk⟩
    refine ⟨k - i, by omega, ?_⟩
    unfold pageSize
    omega

/-! ## Histories of the pool

A call of `pool_free` may be for any part of what one call of `pool_alloc` or several have returned.
What is owned is a set of pages, so that it does not matter which calls returned them. -/

/-- The pools that calls of `pool_alloc` and `pool_free` lead to from `p₀`, each with the pages
returned by `pool_alloc` and not given back since. A call of `pool_free` may name any of them. -/
inductive Reaches (p₀ : Pool) : Pool → Finset Nat → Prop
  | init : Reaches p₀ p₀ ∅
  | allocFail {p p' : Pool} {owned : Finset Nat} {n : Nat} :
      Reaches p₀ p owned → 0 < n → n ≤ p.poolnumend → p.poolAlloc n = (p', 0) →
      Reaches p₀ p' owned
  | alloc {p p' : Pool} {owned : Finset Nat} {n page : Nat} :
      Reaches p₀ p owned → 0 < n → n ≤ p.poolnumend → p.poolAlloc n = (p', page) → page ≠ 0 →
      Reaches p₀ p' (owned ∪ pages page n)
  | free {p p' : Pool} {owned : Finset Nat} {n address : Nat} :
      Reaches p₀ p owned → 0 < n → pages address n ⊆ owned → p.poolFree address n = .ok p' →
      Reaches p₀ p' (owned \ pages address n)

/-- The pool `p` of a history that began with `p₀`, against the pages that are owned. -/
structure Owned (p₀ p : Pool) (owned : Finset Nat) : Prop where
  poolnumend : p.poolnumend = p₀.poolnumend
  pagestart : p.pagestart = p₀.pagestart
  inPool : ∀ a ∈ owned, ∃ k < p.poolnumend, p.pagestart + pageSize * k = a
  busy : ∀ k, p.pagepool k ≠ 0 ↔ p.pagestart + pageSize * k ∈ owned

namespace Owned

variable {p₀ : Pool} {owned : Finset Nat}

/-- A cell is zero exactly if nobody owns its page. -/
theorem free_iff (h : Owned p₀ p owned) (k : Nat) :
    p.pagepool k = 0 ↔ p.pagestart + pageSize * k ∉ owned := by
  rw [← h.busy k, not_not]

/-- A run of free pages is disjoint from the owned pages. -/
theorem disjoint (h : Owned p₀ p owned) (hfree : p.Free n i) :
    Disjoint owned (pages (p.pagestart + pageSize * i) n) := by
  rw [Finset.disjoint_left]
  intro a ha hmem
  obtain ⟨k, hk, rfl⟩ := mem_pages.mp hmem
  apply (h.free_iff (i + k)).mp (hfree.2 k hk)
  rwa [Nat.mul_add, ← Nat.add_assoc]

/-- Marking a free run adds its pages to the owned ones. None of them was owned before, since the
pages of the owned ones are exactly the cells that are set. -/
theorem mark (h : Owned p₀ p owned) (hfree : p.Free n i) :
    Owned p₀ { p with pagepool := fillCells p.pagepool i 1 n }
      (owned ∪ pages (p.pagestart + pageSize * i) n) := by
  refine ⟨h.poolnumend, h.pagestart, ?_, ?_⟩
  · intro a ha
    rcases Finset.mem_union.mp ha with ha | ha
    · exact h.inPool a ha
    · obtain ⟨k, hk, rfl⟩ := mem_pages.mp ha
      have hend := hfree.1
      refine ⟨i + k, ?_, ?_⟩
      · show i + k < p.poolnumend
        omega
      · show p.pagestart + pageSize * (i + k) = _
        rw [Nat.mul_add, Nat.add_assoc]
  · intro k
    show fillCells p.pagepool i 1 n k ≠ 0 ↔ p.pagestart + pageSize * k ∈ _
    rw [fillCells_apply, Finset.mem_union, page_mem_pages, ← h.busy k]
    by_cases hk : i ≤ k ∧ k < i + n
    · simp [hk]
    · simp [hk]

/-- Pages that are owned are given back without a panic, and only they are. They are in the pool and
their cells are busy, so no check fails. -/
theorem poolFree (h : Owned p₀ p owned) (hstart : p₀.pagestart % pageSize = 0) (hn : 0 < n)
    (hsub : pages address n ⊆ owned) :
    ∃ p', p.poolFree address n = .ok p' ∧ Owned p₀ p' (owned \ pages address n) := by
  have hfirst : address ∈ pages address n := mem_pages.mpr ⟨0, hn, by omega⟩
  obtain ⟨i, hi, haddr⟩ := h.inPool address (hsub hfirst)
  subst haddr
  have haligned : (p.pagestart + pageSize * i) % pageSize = 0 := by
    rw [Nat.add_mul_mod_self_left, h.pagestart]
    exact hstart
  have hlocal : (p.pagestart + pageSize * i - p.pagestart) / pageSize = i := by
    rw [Nat.add_sub_cancel_left]
    exact Nat.mul_div_cancel_left i (by decide)
  have hbusy : ∀ k < n, p.pagepool (i + k) ≠ 0 := by
    intro k hk
    rw [h.busy]
    apply hsub
    rw [page_mem_pages]
    omega
  -- the last page freed is an owned one, so it lies in the pool
  have hend : i + n ≤ p.poolnumend := by
    have hlast : p.pagestart + pageSize * (i + (n - 1)) ∈ owned := by
      rw [← h.busy]
      exact hbusy (n - 1) (by omega)
    obtain ⟨k, hk, heq⟩ := h.inPool _ hlast
    unfold pageSize at heq
    omega
  obtain ⟨cells, hok, hcells⟩ := freeCells_of_busy hbusy
  refine ⟨{ p with pagepool := cells }, ?_, h.poolnumend, h.pagestart, ?_, ?_⟩
  · simp only [Pool.poolFree, haligned, hlocal, kassert_of hend, hok, ne_eq, not_true_eq_false,
      if_false, ok_bind]
    rfl
  · intro a ha
    exact h.inPool a (Finset.mem_sdiff.mp ha).1
  · intro k
    show cells k ≠ 0 ↔ p.pagestart + pageSize * k ∈ _
    rw [hcells k, Finset.mem_sdiff, page_mem_pages, ← h.busy k]
    by_cases hk : i ≤ k ∧ k < i + n
    · simp [hk]
    · simp [hk]

end Owned

/-- The induction along a history: a call that fails changes nothing, one that succeeds marks a run
that was free, and `pool_free` clears pages that are owned. -/
theorem Reaches.owned {p₀ : Pool} {owned : Finset Nat} (hstart : p₀.pagestart % pageSize = 0)
    (hzero : ∀ k, p₀.pagepool k = 0) (h : Reaches p₀ p owned) : Owned p₀ p owned := by
  induction h with
  | init =>
    refine ⟨rfl, rfl, by simp, ?_⟩
    intro k
    simp [hzero k]
  | allocFail _ hn hle halloc ih =>
    rcases poolAlloc_cases hn hle halloc with ⟨-, rfl⟩ | ⟨hne, -⟩
    · exact ih
    · exact absurd rfl hne
  | alloc _ hn hle halloc hpage ih =>
    rcases poolAlloc_cases hn hle halloc with ⟨hnull, -⟩ | ⟨-, i, hfree, rfl, rfl⟩
    · exact absurd hnull hpage
    · exact ih.mark hfree
  | free _ hn hsub hfree ih =>
    obtain ⟨q, hq, howned⟩ := ih.poolFree hstart hn hsub
    rw [hfree] at hq
    cases hq
    exact howned

/-- The cells of a pool that `pool_init` has just set up are all zero. -/
theorem poolInit_pagepool (start end_ k : Nat) : (boot.poolInit start end_).pagepool k = 0 := by
  show fillCells (fun _ => 0) 0 0 _ k = 0
  rw [fillCells_apply]
  exact ite_self 0

/-- **Page ownership.** In every history of a pool set up over `[start, end)`, the busy cells are
those of the owned pages; what `pool_alloc` returns is page-aligned, inside the pool and disjoint
from the owned pages; `pool_free` of owned pages does not panic; and a pool with no owned page is
the pool as it was set up. -/
theorem reaches_page_ownership (start end_ : Nat) (haligned : start % pageSize = 0)
    (_hle : start ≤ end_) {p : Pool} {owned : Finset Nat}
    (h : Reaches (boot.poolInit start end_) p owned) :
    (∀ k, p.pagepool k ≠ 0 ↔ start + pageSize * k ∈ owned) ∧
    (∀ a ∈ owned, ∃ k < p.poolnumend, start + pageSize * k = a) ∧
    (∀ n p' page, 0 < n → n ≤ p.poolnumend → p.poolAlloc n = (p', page) → page ≠ 0 →
      page % pageSize = 0 ∧ start ≤ page ∧
        page + pageSize * n ≤ start + pageSize * p.poolnumend ∧
        Disjoint owned (pages page n)) ∧
    (∀ address n, 0 < n → pages address n ⊆ owned → ∃ p', p.poolFree address n = .ok p') ∧
    (owned = ∅ → p = boot.poolInit start end_) := by
  have hinv := h.owned haligned (poolInit_pagepool start end_)
  have hpagestart : p.pagestart = start := hinv.pagestart
  refine ⟨?_, ?_, ?_, ?_, ?_⟩
  · rw [← hpagestart]
    exact hinv.busy
  · rw [← hpagestart]
    exact hinv.inPool
  · intro n p' page hn hbound halloc hpage
    rcases poolAlloc_cases hn hbound halloc with ⟨hnull, -⟩ | ⟨-, i, hfree, rfl, -⟩
    · exact absurd hnull hpage
    · have hend := hfree.1
      refine ⟨?_, ?_, ?_, hinv.disjoint hfree⟩
      · rw [Nat.add_mul_mod_self_left, hpagestart]
        exact haligned
      · omega
      · rw [hpagestart, Nat.add_assoc, ← Nat.mul_add]
        exact Nat.add_le_add_left (Nat.mul_le_mul_left pageSize hend) start
  · intro address n hn hsub
    obtain ⟨p', hok, -⟩ := hinv.poolFree haligned hn hsub
    exact ⟨p', hok⟩
  · intro hempty
    have hcells : p.pagepool = (boot.poolInit start end_).pagepool := by
      funext k
      rw [poolInit_pagepool, hinv.free_iff k, hempty]
      exact Finset.notMem_empty _
    obtain ⟨pagepool, poolnumend, pagestart⟩ := p
    rw [mk.injEq]
    exact ⟨hcells, hinv.poolnumend, hinv.pagestart⟩

/-- Three pages from `0x80000` on: two allocations, the middle page given back. -/
theorem reaches_page_ownership_three :
    ∃ p, Reaches (boot.poolInit 0x80000 0x83000) p {0x80000, 0x82000} ∧
      (p.pagepool 1 = 0 ∧ p.pagepool 2 ≠ 0) ∧
      ∃ p', p.poolFree 0x80000 1 = .ok p' := by
  have h₁ : Reaches (boot.poolInit 0x80000 0x83000) _ _ :=
    .alloc (n := 2) .init (by decide) (by decide) rfl (by decide)
  have h₂ : Reaches (boot.poolInit 0x80000 0x83000) _ _ :=
    .alloc (n := 1) h₁ (by decide) (by decide) rfl (by decide)
  have h₃ : Reaches (boot.poolInit 0x80000 0x83000) _ _ :=
    .free (n := 1) h₂ (by decide) (by decide : pages 0x81000 1 ⊆ _) rfl
  have howned : (∅ ∪ pages 0x80000 2 ∪ pages 0x82000 1) \ pages 0x81000 1 = {0x80000, 0x82000} := by
    decide
  obtain ⟨hbusy, -, -, hfree, -⟩ :=
    reaches_page_ownership 0x80000 0x83000 (by decide) (by decide) h₃
  refine ⟨_, howned ▸ h₃, ⟨by decide, ?_⟩, hfree 0x80000 1 (by decide) (by decide)⟩
  rw [hbusy]
  decide

/-! ## One page at a time (`kalloc`, `kfree`)

The callers of these see of the pool which pages are handed out (`Busy`). -/

/-- `kalloc()`, for a pool that has pages: one page of the pool, or the panic for the null pointer
that `pool_alloc` returns when no cell is free. -/
def kalloc (p : Pool) : Except Stop (Nat × Pool) :=
  let (p', page) := p.poolAlloc 1
  if page = 0 then .error (.panic "kmem: kalloc fails.") else .ok (page, p')

/-- `kfree(page_address)` -/
def kfree (p : Pool) (pageAddress : Nat) : Except Stop Pool := p.poolFree pageAddress 1

/-- The page at the address is handed out. -/
def Busy (p : Pool) (address : Nat) : Prop :=
  ∃ k < p.poolnumend, address = p.pagestart + pageSize * k ∧ p.pagepool k ≠ 0

/-- `kalloc` marks a free page: what it returns is the address of a cell that was clear, and the
pool differs in this one cell. -/
theorem kalloc_eq_fill (hsize : 0 < p.poolnumend) (h : p.kalloc = .ok (address, p')) :
    ∃ i, p.Free 1 i ∧ address = p.pagestart + pageSize * i ∧
      p' = { p with pagepool := fillCells p.pagepool i 1 1 } := by
  have hpages : ∃ q page, p.poolAlloc 1 = (q, page) := ⟨_, _, rfl⟩
  obtain ⟨q, page, halloc⟩ := hpages
  rw [kalloc, halloc] at h
  simp only at h
  rcases poolAlloc_cases Nat.one_pos hsize halloc with ⟨hnull, -⟩ | ⟨hpage, i, hfree, haddr, hq⟩
  · rw [if_pos hnull] at h
    cases h
  · rw [if_neg hpage] at h
    cases h
    exact ⟨i, hfree, haddr, hq⟩

/-- `kalloc` hands out a page that was not handed out. This and `kfree_of_busy` are what the rest of
the kernel uses of the pool. -/
theorem kalloc_eq_ok (hsize : 0 < p.poolnumend) (h : p.kalloc = .ok (address, p')) :
    p'.poolnumend = p.poolnumend ∧ ¬ p.Busy address ∧
      ∀ a, p'.Busy a ↔ p.Busy a ∨ a = address := by
  obtain ⟨i, hfree, rfl, rfl⟩ := kalloc_eq_fill hsize h
  have hcell : p.pagepool i = 0 := hfree.2 0 Nat.one_pos
  have hin : i < p.poolnumend := hfree.1
  refine ⟨rfl, ?_, ?_⟩
  · rintro ⟨k, hk, heq, hbusy⟩
    have hki : k = i := by
      unfold pageSize at heq
      omega
    exact hbusy (hki ▸ hcell)
  · intro a
    have hfill : ∀ k, fillCells p.pagepool i 1 1 k ≠ 0 ↔ p.pagepool k ≠ 0 ∨ k = i := by
      intro k
      rw [fillCells_apply]
      by_cases hki : k = i
      · subst hki
        rw [if_pos (by omega)]
        exact iff_of_true (by decide) (.inr rfl)
      · rw [if_neg (by omega)]
        exact ⟨.inl, fun h => h.resolve_right hki⟩
    constructor
    · rintro ⟨k, hk, heq, hbusy⟩
      rcases (hfill k).mp hbusy with hbusy | rfl
      · exact .inl ⟨k, hk, heq, hbusy⟩
      · exact .inr heq
    · rintro (⟨k, hk, heq, hbusy⟩ | rfl)
      · exact ⟨k, hk, heq, (hfill k).mpr (.inl hbusy)⟩
      · exact ⟨i, hin, rfl, (hfill i).mpr (.inr rfl)⟩

/-- `kfree` takes back a page that is handed out, and only this one. There is a page of the pool at
the address, so the number that `pool_free` computes is its number. -/
theorem kfree_of_busy (haligned : address % pageSize = 0) (h : p.Busy address) :
    ∃ p', p.kfree address = .ok p' ∧ p'.poolnumend = p.poolnumend ∧
      ∀ a, p'.Busy a ↔ p.Busy a ∧ a ≠ address := by
  obtain ⟨i, hi, haddr, hbusy⟩ := h
  subst haddr
  have hlocal : (p.pagestart + pageSize * i - p.pagestart) / pageSize = i := by
    rw [Nat.add_sub_cancel_left]
    exact Nat.mul_div_cancel_left i (by decide)
  have hrun : ∀ k < 1, p.pagepool (i + k) ≠ 0 := by
    intro k hk
    have hk0 : k = 0 := by omega
    rwa [hk0]
  obtain ⟨cells, hok, hcells⟩ := freeCells_of_busy hrun
  refine ⟨{ p with pagepool := cells }, ?_, rfl, ?_⟩
  · simp only [kfree, poolFree, haligned, hlocal, kassert_of (show i + 1 ≤ p.poolnumend from hi), hok,
      ne_eq, not_true_eq_false, if_false, ok_bind]
    rfl
  · intro a
    have hcell : ∀ k, cells k ≠ 0 ↔ p.pagepool k ≠ 0 ∧ k ≠ i := by
      intro k
      rw [hcells k]
      by_cases hki : k = i
      · subst hki
        rw [if_pos (by omega)]
        exact iff_of_false (by decide) fun h => h.2 rfl
      · rw [if_neg (by omega)]
        exact ⟨fun h => ⟨h, hki⟩, fun h => h.1⟩
    constructor
    · rintro ⟨k, hk, heq, hcellk⟩
      obtain ⟨hold, hki⟩ := (hcell k).mp hcellk
      refine ⟨⟨k, hk, heq, hold⟩, ?_⟩
      intro hsame
      apply hki
      rw [heq] at hsame
      simp only [pageSize] at hsame
      omega
    · rintro ⟨⟨k, hk, heq, hold⟩, hne⟩
      refine ⟨k, hk, heq, (hcell k).mpr ⟨hold, ?_⟩⟩
      rintro rfl
      exact hne heq

end Pool

end KernelAarch64.Core
