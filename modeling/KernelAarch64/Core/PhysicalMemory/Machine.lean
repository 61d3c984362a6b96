import KernelAarch64.Core.PhysicalMemory
import Mathlib.Data.Int.Init
import Mathlib.Order.Bounds.Defs

/-!
# The page pool in machine integers (`core/physical_memory.c`)

`pool_alloc` compares its index, an `int`, with `poolnumend - numpages`, an `u64`, and `pool_free`
puts the number of a page, a quotient of two `u64`, into an `int`. As long as a request fits into
the pool and an address lies in it, this makes no difference, and the functions do what `poolAlloc`
and `poolFree` say. Here they are for every `int` and every address.

Every access to `pagepool` is recorded. An access outside of the array is a fault.

For requests that fit, the two models agree (`poolAllocLogged_fst`, `poolFreeU64_page`), so first
fit is a fact about `poolAlloc` (`poolAlloc_first_fit`). What is left are the other requests. A
request for more pages than there are makes the bound of the outer loop wrap around
(`staysInPool_iff`). An address whose page number does not fit into an `int` may be taken for
another page (`freesAsked_iff`).
-/

namespace KernelAarch64.Core

/-- A difference of two `u64`. -/
def u64Sub (a b : Nat) : Nat := (a + 2 ^ 64 - b) % 2 ^ 64

/-- An `u64` put into an `int`. -/
def intOfU64 (a : Nat) : Int := (a : Int).bmod (2 ^ 32)

/-- A sum of two `int`, which wraps around, as an `u64`. -/
def u64OfIntAdd (a b : Int) : Nat := (((a + b).bmod (2 ^ 32)) % 2 ^ 64).toNat

namespace Pool

/-- The inner loop of `pool_alloc` with `rem` iterations to go, and the indices it looks at. -/
def scanRunLogged (p : Pool) (numpages i : Nat) :
    (rem j page : Nat) → Except Stop (Nat × Nat) × List Nat
  | 0, j, page => (.ok (j, page), [])
  | rem + 1, j, page =>
    if pagepoolSize ≤ i + j then (.error .fault, [i + j])
    else if p.pagepool (i + j) ≠ 0 then (.ok (j, page), [i + j])
    else
      let page := if j + 1 = numpages then p.pagestart + pageSize * i else page
      let r := scanRunLogged p numpages i rem (j + 1) page
      (r.1, (i + j) :: r.2)

/-- The outer loop of `pool_alloc` from `i` on, with at most `fuel` turns. It compares the index
with a difference of two `u64`, which is huge when the request is larger than the pool. -/
def searchRunLogged (p : Pool) (numpages fuel i : Nat) :
    Except Stop (Option (Nat × Nat)) × List Nat :=
  -- the `int` is not negative, so it is the same number as an `u64`
  if i ≤ u64Sub p.poolnumend numpages then
    match fuel with
    | 0 => (.error .wait, [])
    | fuel + 1 =>
      match p.scanRunLogged numpages i numpages 0 0 with
      | (.error stop, log) => (.error stop, log)
      | (.ok (j, page), log) =>
        if page ≠ 0 then (.ok (some (i, page)), log)
        else
          let r := p.searchRunLogged numpages fuel (i + j + 1)
          (r.1, log ++ r.2)
  else (.ok none, [])

/-- The rest of `pool_alloc`: the pages that were found are marked, or the address is `NULL` and
nothing is. The indices that are written belong to the log, too. -/
def markFound (p : Pool) (numpages : Nat) :
    Except Stop (Option (Nat × Nat)) × List Nat → Except Stop (Pool × Nat) × List Nat
  | (.error stop, log) => (.error stop, log)
  | (.ok none, log) => (.ok (p, 0), log)
  | (.ok (some (i, page)), log) =>
    (.ok ({ p with pagepool := fillCells p.pagepool i 1 numpages }, page),
      log ++ List.range' i numpages)

/-- Enough turns of the outer loop: each of them looks at a cell of the array or ends the loop. -/
def searchTurns : Nat := pagepoolSize + 1

/-- `pool_alloc(numpages)`, for any `int` from one on: the pool afterwards and the address returned,
and the indices at which it reads or writes `pagepool`. -/
def poolAllocLogged (p : Pool) (numpages : Nat) : Except Stop (Pool × Nat) × List Nat :=
  p.markFound numpages (p.searchRunLogged numpages searchTurns 0)

/-- `(int)(((u64)page_address - (u64)pagestart) / PAGE_SIZE)` -/
def localstart (p : Pool) (pageAddress : Nat) : Int :=
  intOfU64 (u64Sub pageAddress p.pagestart / pageSize)

/-- `pool_free(page_address, numpages)`, for any address and any `int` from one on. A negative index
that passes the assertion would be used to read in front of the array, which is a fault. -/
def poolFreeU64 (p : Pool) (pageAddress numpages : Nat) : Except Stop Pool := do
  if pageAddress % pageSize ≠ 0 then
    .error (.panic "kmem: page address not aligned.\n")
  else
    kassert (u64OfIntAdd (p.localstart pageAddress) numpages ≤ p.poolnumend)
      "localstart + numpages <= poolnumend"
    if p.localstart pageAddress < 0 then .error .fault
    else
      let pagepool ← freeCells p.pagepool numpages (p.localstart pageAddress).toNat
      return { p with pagepool := pagepool }

/-- A pool that `pool_init` has set up, over pages behind the image of the kernel. Page zero of the
address space is none of its pages, and the last one ends before the addresses wrap around. -/
structure Ready (p : Pool) : Prop where
  size : p.poolnumend ≤ pagepoolSize
  start : 0 < p.pagestart
  aligned : p.pagestart % pageSize = 0
  end_le : p.pagestart + pageSize * p.poolnumend ≤ 2 ^ 64

variable {p q : Pool} {n i j k page rem fuel address : Nat}

/-- `pool_init` sets up such a pool if its bounds are those of a range of whole pages that does not
begin at zero. -/
theorem ready_poolInit {start end_ : Nat} (hstart : 0 < start) (haligned : start % pageSize = 0)
    (hle : start ≤ end_) (hend : end_ ≤ 2 ^ 64) : (boot.poolInit start end_).Ready := by
  have hnum : (boot.poolInit start end_).poolnumend ≤ (end_ - start) / pageSize :=
    Nat.min_le_right _ _
  refine ⟨Nat.min_le_left _ _, hstart, haligned, ?_⟩
  have hpages : pageSize * ((end_ - start) / pageSize) ≤ end_ - start := Nat.mul_div_le _ _
  have hall := Nat.mul_le_mul_left pageSize hnum
  show start + pageSize * (boot.poolInit start end_).poolnumend ≤ 2 ^ 64
  omega

/-! ## What the loops look at

The log of a loop is the list of the indices that it reads, the latest last. Each of these lemmas is
an induction on the turns that are left. -/

/-- A difference that does not wrap around. -/
theorem u64Sub_of_le {a b : Nat} (ha : a < 2 ^ 64) (hle : b ≤ a) : u64Sub a b = a - b := by
  unfold u64Sub
  omega

/-- The bound of the outer loop wraps around when the request is larger than the pool. -/
theorem le_u64Sub_of_lt {a b : Nat} (hlt : a < b) (hb : b < 2 ^ 31) (hi : i ≤ pagepoolSize) :
    i ≤ u64Sub a b := by
  unfold u64Sub
  unfold pagepoolSize at hi
  omega

/-- The inner loop inside of the array is the one of `poolAlloc`. -/
theorem scanRunLogged_fst (hrem : j + rem = n) (hend : i + n ≤ pagepoolSize) :
    (p.scanRunLogged n i rem j page).1 = .ok (p.scanRun n i rem j page) := by
  induction rem generalizing j page with
  | zero => rfl
  | succ rem ih =>
    have hin : ¬ pagepoolSize ≤ i + j := by omega
    rw [scanRunLogged, if_neg hin, scanRun]
    split
    · rfl
    · exact ih (by omega)

/-- The inner loop looks at the cells of its run only, from the one that it begins with up to the
end of the run at most. -/
theorem scanRunLogged_log (h : k ∈ (p.scanRunLogged n i rem j page).2) :
    i + j ≤ k ∧ k < i + j + rem := by
  induction rem generalizing j page with
  | zero => cases h
  | succ rem ih =>
    rw [scanRunLogged] at h
    split at h
    · have hk : k = i + j := by simpa using h
      omega
    · split at h
      · have hk : k = i + j := by simpa using h
        omega
      · rcases List.mem_cons.mp h with rfl | h
        · omega
        · have := ih h
          omega

/-- Either the inner loop looks at cell `e`, or it stops at a busy cell before. With `e` the cell
behind the pool, this is why a request that does not fit gets there. -/
theorem scanRunLogged_cases {e : Nat} (he : e ≤ pagepoolSize) (hlo : i + j ≤ e)
    (hhi : e < i + j + rem) (hrem : j + rem = n) :
    e ∈ (p.scanRunLogged n i rem j page).2 ∨
      ∃ r, (p.scanRunLogged n i rem j page).1 = .ok (r, page) ∧ i + r < e := by
  induction rem generalizing j page with
  | zero => omega
  | succ rem ih =>
    rw [scanRunLogged]
    by_cases hfirst : e = i + j
    · left
      subst hfirst
      split
      · exact List.mem_singleton_self _
      · split
        · exact List.mem_singleton_self _
        · exact List.mem_cons_self
    · have hin : ¬ pagepoolSize ≤ i + j := by omega
      rw [if_neg hin]
      split
      · exact .inr ⟨j, rfl, by omega⟩
      · -- the last cell of the run is not before `e`
        have hnext : j + 1 ≠ n := by omega
        rw [if_neg hnext]
        rcases ih (j := j + 1) (by omega) (by omega) (by omega) with hmem | hstop
        · exact .inl (List.mem_cons_of_mem _ hmem)
        · exact .inr hstop

/-- The bound of the outer loop for a request that fits. -/
theorem searchBound_of_le (hsize : p.poolnumend ≤ pagepoolSize) (hle : n ≤ p.poolnumend) :
    u64Sub p.poolnumend n = p.poolnumend - n := by
  apply u64Sub_of_le _ hle
  unfold pagepoolSize at hsize
  omega

/-- The outer loop for a request that fits is the one of `poolAlloc`. The two bounds are the same
number then, and the inner loop stays in the array. -/
theorem searchRunLogged_fst (hsize : p.poolnumend ≤ pagepoolSize) (hle : n ≤ p.poolnumend)
    (hfuel : p.poolnumend < i + fuel) :
    (p.searchRunLogged n fuel i).1 = .ok (p.searchRun n fuel i) := by
  have hbound := searchBound_of_le hsize hle
  induction fuel generalizing i with
  | zero =>
    have hi : ¬ i ≤ u64Sub p.poolnumend n := by omega
    rw [searchRunLogged, if_neg hi]
    rfl
  | succ fuel ih =>
    rw [searchRunLogged, hbound, searchRun]
    split
    · next hi =>
      have hscan : (p.scanRunLogged n i n 0 0).1 = .ok (p.scanRun n i n 0 0) :=
        scanRunLogged_fst (Nat.zero_add n) (by omega)
      generalize p.scanRunLogged n i n 0 0 = s at hscan
      obtain ⟨result, log⟩ := s
      cases hscan
      dsimp only
      split
      · rfl
      · exact ih (by omega)
    · rfl

/-- The outer loop for a request that fits stays in the pool. A run it looks at begins at most `n`
cells before the end. -/
theorem searchRunLogged_log (hsize : p.poolnumend ≤ pagepoolSize) (hle : n ≤ p.poolnumend)
    (h : k ∈ (p.searchRunLogged n fuel i).2) : k < p.poolnumend := by
  have hbound := searchBound_of_le hsize hle
  induction fuel generalizing i with
  | zero =>
    rw [searchRunLogged] at h
    split at h <;> cases h
  | succ fuel ih =>
    rw [searchRunLogged, hbound] at h
    split at h
    · next hi =>
      have hscan : ∀ k ∈ (p.scanRunLogged n i n 0 0).2, k < p.poolnumend := by
        intro k hk
        have := scanRunLogged_log hk
        omega
      generalize p.scanRunLogged n i n 0 0 = s at hscan h
      obtain ⟨result, log⟩ := s
      cases result with
      | error stop => exact hscan k h
      | ok r =>
        dsimp only at h
        split at h
        · exact hscan k h
        · rcases List.mem_append.mp h with hk | hk
          · exact hscan k hk
          · exact ih hk
    · cases h

/-- The outer loop for a request that does not fit reads the cell behind the pool. The bound is
huge, so the loop goes on until it is there: a run it begins in the pool is longer than what is left
of the pool. -/
theorem searchRunLogged_past (hsize : p.poolnumend ≤ pagepoolSize) (hlt : p.poolnumend < n)
    (hint : n < 2 ^ 31) (hi : i ≤ p.poolnumend) (hfuel : p.poolnumend < i + fuel) :
    p.poolnumend ∈ (p.searchRunLogged n fuel i).2 := by
  induction fuel generalizing i with
  | zero => omega
  | succ fuel ih =>
    rw [searchRunLogged, if_pos (le_u64Sub_of_lt hlt hint (by omega))]
    have hscan : p.poolnumend ∈ (p.scanRunLogged n i n 0 0).2 ∨
        ∃ r, (p.scanRunLogged n i n 0 0).1 = .ok (r, 0) ∧ i + r < p.poolnumend :=
      scanRunLogged_cases hsize (by omega) (by omega) (Nat.zero_add n)
    generalize p.scanRunLogged n i n 0 0 = s at hscan
    obtain ⟨result, log⟩ := s
    rcases hscan with hmem | ⟨r, hr, hbusy⟩
    · cases result with
      | error stop => exact hmem
      | ok x =>
        dsimp only
        split
        · exact hmem
        · exact List.mem_append_left _ hmem
    · -- after the busy cell the loop goes on, and it has not passed the end yet
      cases hr
      exact List.mem_append_right _ (ih (by omega) (by omega))

/-! ## `pool_alloc`

The bound of the loop is `poolnumend - numpages`, which is huge when the request is larger. -/

/-- Enough turns for any index in the array. -/
theorem lt_searchTurns (h : n ≤ pagepoolSize) : n < 0 + searchTurns := by
  rw [Nat.zero_add]
  exact Nat.lt_succ_of_le h

/-- More turns than cells make no difference, since every turn moves on by one cell at least. -/
theorem searchRun_fuel {fuel' : Nat} (h : p.poolnumend < i + fuel) (h' : p.poolnumend < i + fuel') :
    p.searchRun n fuel i = p.searchRun n fuel' i := by
  induction fuel generalizing i fuel' with
  | zero =>
    cases fuel' with
    | zero => rfl
    | succ fuel' =>
      have hi : ¬ i ≤ p.poolnumend - n := by omega
      rw [searchRun, searchRun, if_neg hi]
  | succ fuel ih =>
    cases fuel' with
    | zero =>
      have hi : ¬ i ≤ p.poolnumend - n := by omega
      rw [searchRun, searchRun, if_neg hi]
    | succ fuel' =>
      rw [searchRun, searchRun]
      split
      · dsimp only
        split
        · rfl
        · exact ih (by omega) (by omega)
      · rfl

/-- For a request that fits, the function is `poolAlloc`. The log is all that it has in addition, as
the difference does not wrap round and no access leaves the array. -/
theorem poolAllocLogged_fst (hsize : p.poolnumend ≤ pagepoolSize) (hle : n ≤ p.poolnumend) :
    (p.poolAllocLogged n).1 = .ok (p.poolAlloc n) := by
  have hsearch : (p.searchRunLogged n searchTurns 0).1 =
      .ok (p.searchRun n (p.poolnumend + 1) 0) := by
    have hfuel : p.searchRun n searchTurns 0 = p.searchRun n (p.poolnumend + 1) 0 :=
      searchRun_fuel (lt_searchTurns hsize) (by omega)
    rw [searchRunLogged_fst hsize hle (lt_searchTurns hsize), hfuel]
  unfold poolAllocLogged poolAlloc
  generalize p.searchRunLogged n searchTurns 0 = s at hsearch
  obtain ⟨result, log⟩ := s
  cases hsearch
  cases p.searchRun n (p.poolnumend + 1) 0 with
  | none => rfl
  | some r => rfl

/-- For a request that fits, the function stays in the pool: while it searches, and when it marks
the run that it has found. -/
theorem poolAllocLogged_log (hsize : p.poolnumend ≤ pagepoolSize) (hn : 1 ≤ n)
    (hle : n ≤ p.poolnumend) (h : k ∈ (p.poolAllocLogged n).2) : k < p.poolnumend := by
  have hread : ∀ k ∈ (p.searchRunLogged n searchTurns 0).2, k < p.poolnumend :=
    fun k hk => searchRunLogged_log hsize hle hk
  have hsearch : (p.searchRunLogged n searchTurns 0).1 = _ :=
    searchRunLogged_fst hsize hle (lt_searchTurns hsize)
  unfold poolAllocLogged at h
  generalize p.searchRunLogged n searchTurns 0 = s at hread hsearch h
  obtain ⟨result, log⟩ := s
  cases hsearch
  cases hfound : p.searchRun n searchTurns 0 with
  | none =>
    rw [hfound] at h
    exact hread k h
  | some r =>
    obtain ⟨i, page⟩ := r
    rw [hfound] at h
    rcases List.mem_append.mp h with hk | hk
    · exact hread k hk
    · -- the cells that are written are those of the free run
      obtain ⟨⟨hend, -⟩, -⟩ := searchRun_eq_some hn hle hfound
      have := List.mem_range'_1.mp hk
      omega

/-- For a request that does not fit, the function reads the cell behind the pool. -/
theorem poolAllocLogged_past (hsize : p.poolnumend ≤ pagepoolSize) (hlt : p.poolnumend < n)
    (hint : n < 2 ^ 31) : p.poolnumend ∈ (p.poolAllocLogged n).2 := by
  have hpast : p.poolnumend ∈ (p.searchRunLogged n searchTurns 0).2 :=
    searchRunLogged_past hsize hlt hint (Nat.zero_le _) (lt_searchTurns hsize)
  unfold poolAllocLogged
  generalize p.searchRunLogged n searchTurns 0 = s at hpast
  obtain ⟨result, log⟩ := s
  cases result with
  | error stop => exact hpast
  | ok r =>
    cases r with
    | none => exact hpast
    | some x => exact List.mem_append_left _ hpast

/-- The pages `i`, ..., `i + n - 1` are marked. -/
def marked (p : Pool) (i n : Nat) : Pool :=
  { p with pagepool := fun k => if i ≤ k ∧ k < i + n then 1 else p.pagepool k }

/-- The loop of `pool_alloc` that marks the pages. -/
theorem marked_eq (p : Pool) (i n : Nat) :
    { p with pagepool := fillCells p.pagepool i 1 n } = p.marked i n := by
  unfold marked
  congr 1
  funext k
  exact fillCells_apply p.pagepool i 1 n k

/-- **First fit.** A request that fits into the pool gets the lowest run of free pages that is long
enough, and only these pages are marked; it fails, and changes nothing, exactly when there is no
such run. -/
theorem poolAlloc_first_fit (hsize : p.poolnumend ≤ pagepoolSize) (hstart : 0 < p.pagestart)
    (hn : 1 ≤ n) (hle : n ≤ p.poolnumend) :
    (∀ i, IsLeast {i | p.Free n i} i →
      (p.poolAllocLogged n).1 = .ok (p.marked i n, p.pagestart + pageSize * i)) ∧
    ((∃ q, (p.poolAllocLogged n).1 = .ok (q, 0)) ↔ ∀ i, ¬ p.Free n i) ∧
    ((∀ i, ¬ p.Free n i) → (p.poolAllocLogged n).1 = .ok (p, 0)) := by
  rw [poolAllocLogged_fst hsize hle]
  obtain ⟨q, page, halloc⟩ : ∃ q page, p.poolAlloc n = (q, page) := ⟨_, _, rfl⟩
  have hfirst : ∀ k, p.Free n k → ∃ i ≤ k, page = p.pagestart + pageSize * i := by
    intro k hk
    obtain ⟨i, hik, hpage⟩ := poolAlloc_first hn hle hstart hk
    rw [halloc] at hpage
    exact ⟨i, hik, hpage⟩
  rw [halloc]
  rcases poolAlloc_cases hn hle halloc with ⟨rfl, rfl⟩ | ⟨hpage, j, hfree, rfl, rfl⟩
  · -- the call fails, so there is no free run
    have hnone : ∀ i, ¬ q.Free n i := by
      intro i hi
      obtain ⟨j, -, hj⟩ := hfirst i hi
      omega
    exact ⟨fun i hi => absurd hi.1 (hnone i), iff_of_true ⟨q, rfl⟩ hnone, fun _ => rfl⟩
  · rw [marked_eq]
    refine ⟨?_, ?_, fun hnone => absurd hfree (hnone j)⟩
    · intro i hi
      obtain ⟨j', hle', hj'⟩ := hfirst i hi.1
      have hij : i = j := by
        have hlow : i ≤ j := hi.2 hfree
        unfold pageSize at hj'
        omega
      rw [hij]
    · refine iff_of_false ?_ fun hnone => hnone j hfree
      rintro ⟨q, hq⟩
      exact hpage (congrArg Prod.snd (Except.ok.inj hq))

/-- Four pages from `0x80000` on, of which the second is handed out: a request for two pages gets
the last two. -/
theorem poolAlloc_first_fit_behind :
    (((boot.poolInit 0x80000 0x84000).marked 1 1).poolAllocLogged 2).1 =
      .ok (((boot.poolInit 0x80000 0x84000).marked 1 1).marked 2 2, 0x82000) := by
  have hfit := poolAlloc_first_fit (p := (boot.poolInit 0x80000 0x84000).marked 1 1) (n := 2)
    (by decide) (by decide) (by decide) (by decide)
  refine hfit.1 2 ⟨⟨by decide, by decide⟩, ?_⟩
  intro i hi
  by_contra hlt
  -- a run that starts at page 0 or 1 has the busy page in it
  have hcell := hi.2 (1 - i) (by omega)
  rw [Nat.add_sub_cancel' (by omega)] at hcell
  exact absurd hcell (by decide)

/-- `pool_alloc(n)` looks at no cell behind the pool, and fails if `n` is larger than the pool. -/
def StaysInPool (p : Pool) (n : Nat) : Prop :=
  (∀ k ∈ (p.poolAllocLogged n).2, k < p.poolnumend) ∧
    (p.poolnumend < n → ∃ q, (p.poolAllocLogged n).1 = .ok (q, 0))

/-- `pool_alloc` stays in the pool exactly when the request is not larger than the pool: otherwise
the bound of its loop wraps around. -/
theorem staysInPool_iff (hsize : p.poolnumend ≤ pagepoolSize) (hn : 1 ≤ n) (hint : n < 2 ^ 31) :
    p.StaysInPool n ↔ n ≤ p.poolnumend := by
  constructor
  · intro h
    by_contra hlt
    have hpast := poolAllocLogged_past hsize (not_le.mp hlt) hint
    exact absurd (h.1 _ hpast) (Nat.lt_irrefl _)
  · intro hle
    exact ⟨fun k hk => poolAllocLogged_log hsize hn hle hk, fun hlt => absurd hle (not_le.mpr hlt)⟩

/-- A request for the whole pool. -/
theorem staysInPool_three : StaysInPool (boot.poolInit 0x80000 0x83000) 3 :=
  (staysInPool_iff (by decide) (by decide) (by decide)).mpr (by decide)

/-- Of a pool with three pages, `pool_alloc(4)` hands out four: the difference of the unsigned
numbers wraps round, and the loop looks at the cell behind the last page. -/
theorem four_pages_of_three : ¬ StaysInPool (boot.poolInit 0x80000 0x83000) 4 ∧
    ((boot.poolInit 0x80000 0x83000).poolAllocLogged 4).1.map Prod.snd = .ok 0x80000 := by
  constructor
  · intro h
    have hpast : 3 ∈ ((boot.poolInit 0x80000 0x83000).poolAllocLogged 4).2 :=
      poolAllocLogged_past (by decide) (by decide) (by decide)
    exact absurd (h.1 3 hpast) (by decide)
  · have hbound : 0 ≤ u64Sub (boot.poolInit 0x80000 0x83000).poolnumend 4 := Nat.zero_le _
    have hscan : (boot.poolInit 0x80000 0x83000).scanRunLogged 4 0 4 0 0 =
        (.ok (4, 0x80000), [0, 1, 2, 3]) := by
      decide
    have hturns : searchTurns = pagepoolSize + 1 := rfl
    rw [poolAllocLogged, hturns, searchRunLogged, if_pos hbound]
    simp only [hscan]
    rfl

/-! ## `pool_free`

The page number is a 64-bit quotient put into an `int`, and then compared as an `int`. -/

theorem localstart_range (p : Pool) (address : Nat) :
    -2 ^ 31 ≤ p.localstart address ∧ p.localstart address < 2 ^ 31 := by
  unfold localstart intOfU64
  rw [Int.bmod_def]
  split <;> omega

/-- Inside of the pool, the index that `pool_free` computes is the number of the page: nothing is
lost on the way through the `int`. -/
theorem localstart_page (h : p.Ready) (hi : i < p.poolnumend) :
    p.localstart (p.pagestart + pageSize * i) = i := by
  have hsize := h.size
  have hend := h.end_le
  have hsub : u64Sub (p.pagestart + pageSize * i) p.pagestart = pageSize * i := by
    unfold pageSize at hend ⊢
    rw [u64Sub_of_le (by omega) (by omega)]
    omega
  unfold localstart intOfU64
  rw [hsub, Nat.mul_div_cancel_left i (by decide), Int.bmod_def]
  unfold pagepoolSize at hsize
  split <;> omega

/-- What the assertion of `pool_free` checks. -/
theorem u64OfIntAdd_le {a : Int} {b e : Nat} (ha : -2 ^ 31 ≤ a ∧ a < 2 ^ 31) (hb : b < 2 ^ 31)
    (he : e ≤ pagepoolSize) : u64OfIntAdd a b ≤ e ↔ 0 ≤ a + b ∧ a + b ≤ e := by
  unfold u64OfIntAdd
  rw [Int.bmod_def]
  unfold pagepoolSize at he
  split <;> omega

/-- The loop of `pool_free` stops at a free cell, wherever in the run it is, with the panic for a
page that is freed twice. -/
theorem freeCells_of_free {pagepool : Nat → UInt8} (hk : k < rem) (hfree : pagepool (i + k) = 0) :
    freeCells pagepool rem i = .error (.panic "kmem: refree a free physical page.") := by
  induction rem generalizing pagepool i k with
  | zero => cases hk
  | succ rem ih =>
    rw [freeCells]
    split
    · rfl
    · next hbusy =>
      cases k with
      | zero => exact absurd hfree hbusy
      | succ k =>
        have hnext : i + 1 + k = i + (k + 1) := by omega
        refine ih (k := k) (by omega) ?_
        rw [hnext, Function.update_of_ne (by omega)]
        exact hfree

/-- The pages `i`, ..., `i + n - 1` are free. -/
def unmarked (p : Pool) (i n : Nat) : Pool :=
  { p with pagepool := fun k => if i ≤ k ∧ k < i + n then 0 else p.pagepool k }

/-- How `pool_free` ends, for an aligned address: with the assertion, with a read in front of the
array, or with the loop over cells that exist. The number that it computes from the address decides.
-/
theorem poolFreeU64_cases (hsize : p.poolnumend ≤ pagepoolSize) (haligned : address % pageSize = 0)
    (hint : n < 2 ^ 31) :
    (¬ (0 ≤ p.localstart address + n ∧ p.localstart address + n ≤ p.poolnumend) ∧
      ∃ msg, p.poolFreeU64 address n = .error (.panic msg)) ∨
    (0 ≤ p.localstart address + n ∧ p.localstart address + n ≤ p.poolnumend ∧
      p.localstart address < 0 ∧ p.poolFreeU64 address n = .error .fault) ∨
    ∃ i : Nat, p.localstart address = i ∧ i + n ≤ p.poolnumend ∧
      ((∃ k < n, p.pagepool (i + k) = 0) ∧ (∃ msg, p.poolFreeU64 address n = .error (.panic msg)) ∨
        (∀ k < n, p.pagepool (i + k) ≠ 0) ∧ p.poolFreeU64 address n = .ok (p.unmarked i n)) := by
  have hcheck := u64OfIntAdd_le (p.localstart_range address) hint hsize
  have hnot : ¬ address % pageSize ≠ 0 := not_not.mpr haligned
  unfold poolFreeU64
  rw [if_neg hnot]
  by_cases hassert : u64OfIntAdd (p.localstart address) n ≤ p.poolnumend
  · obtain ⟨hlo, hhi⟩ := hcheck.mp hassert
    rw [kassert_of hassert, ok_bind]
    by_cases hneg : p.localstart address < 0
    · exact .inr (.inl ⟨hlo, hhi, hneg, if_pos hneg⟩)
    · rw [if_neg hneg]
      obtain ⟨i, hi⟩ := Int.eq_ofNat_of_zero_le (not_lt.mp hneg)
      rw [hi, Int.toNat_natCast]
      refine .inr (.inr ⟨i, rfl, by omega, ?_⟩)
      by_cases hfree : ∃ k < n, p.pagepool (i + k) = 0
      · obtain ⟨k, hk, hcell⟩ := hfree
        rw [freeCells_of_free hk hcell]
        exact .inl ⟨⟨k, hk, hcell⟩, _, rfl⟩
      · have hbusy : ∀ k < n, p.pagepool (i + k) ≠ 0 := fun k hk hcell => hfree ⟨k, hk, hcell⟩
        obtain ⟨cells, hok, hcells⟩ := freeCells_of_busy hbusy
        rw [hok, ok_bind]
        refine .inr ⟨hbusy, ?_⟩
        have heq : cells = (p.unmarked i n).pagepool := funext hcells
        rw [heq]
        rfl
  · refine .inl ⟨fun hrange => hassert (hcheck.mpr hrange), ?_⟩
    rw [kassert, if_neg hassert, error_bind]
    exact ⟨_, rfl⟩

/-- For a page of the pool, the function is `poolFree`: no part of its arithmetic wraps round there,
and the count keeps its value as an `int`. -/
theorem poolFreeU64_page (h : p.Ready) (hi : i < p.poolnumend) (hint : n < 2 ^ 31) :
    p.poolFreeU64 (p.pagestart + pageSize * i) n = p.poolFree (p.pagestart + pageSize * i) n := by
  have hlocal : (p.pagestart + pageSize * i - p.pagestart) / pageSize = i := by
    rw [Nat.add_sub_cancel_left]
    exact Nat.mul_div_cancel_left i (by decide)
  have hrange := p.localstart_range (p.pagestart + pageSize * i)
  unfold poolFreeU64 poolFree
  rw [localstart_page h hi] at hrange ⊢
  have hcheck : u64OfIntAdd i n ≤ p.poolnumend ↔ i + n ≤ p.poolnumend := by
    rw [u64OfIntAdd_le hrange hint h.size]
    omega
  have hnonneg : ¬ (i : Int) < 0 := by omega
  simp only [hlocal, kassert, hcheck, hnonneg, if_false, Int.toNat_natCast]

/-- `pool_free(address, n)` panics, or the pages lie in the pool, were handed out, and are the ones
that are free afterwards. -/
def FreesAsked (p : Pool) (address n : Nat) : Prop :=
  (∃ msg, p.poolFreeU64 address n = .error (.panic msg)) ∨
    ∃ i, address = p.pagestart + pageSize * i ∧ i + n ≤ p.poolnumend ∧
      (∀ k < n, p.pagepool (i + k) ≠ 0) ∧ p.poolFreeU64 address n = .ok (p.unmarked i n)

/-- The number of the page before it is put into an `int`: the 64-bit difference to the start of the
pool, in pages. -/
def pageIndex (p : Pool) (address : Nat) : Nat := u64Sub address p.pagestart / pageSize

/-- The page number lies a positive multiple of `2 ^ 32` pages above a number `j` at which the call
finds nothing to refuse: the `n` pages from `j` on end in the pool, and they are handed out, or `j`
is negative and the cells in front of the array are read. -/
def Aliased (p : Pool) (address n : Nat) : Prop :=
  ∃ m : Nat, 1 ≤ m ∧ ∃ j : Int, p.pageIndex address = j + 2 ^ 32 * m ∧ 0 ≤ j + n ∧
    j + n ≤ p.poolnumend ∧ ∀ k < n, 0 ≤ j → p.pagepool (j.toNat + k) ≠ 0

/-- What the `int` holds: the page number less a multiple of `2 ^ 32`. -/
theorem localstart_eq_pageIndex (p : Pool) (address : Nat) :
    ∃ m : Nat, p.pageIndex address = p.localstart address + 2 ^ 32 * m := by
  have hbound := p.localstart_range address
  have hindex : p.localstart address = (p.pageIndex address : Int).bmod (2 ^ 32) := by
    unfold localstart intOfU64 pageIndex
    rfl
  have hmod := Int.bmod_add_bdiv (p.pageIndex address : Int) (2 ^ 32)
  rw [← hindex] at hmod
  have hnonneg : 0 ≤ (p.pageIndex address : Int).bdiv (2 ^ 32) := by
    omega
  obtain ⟨m, hm⟩ := Int.eq_ofNat_of_zero_le hnonneg
  refine ⟨m, ?_⟩
  rw [hm] at hmod
  exact hmod.symm

/-- Two numbers of an `int` that differ by a multiple of `2 ^ 32` are the same. -/
theorem localstart_of_pageIndex {j : Int} {m : Nat}
    (hj : p.pageIndex address = j + 2 ^ 32 * m) (hlo : -2 ^ 31 ≤ j) (hhi : j < 2 ^ 31) :
    p.localstart address = j := by
  have hbound := p.localstart_range address
  obtain ⟨m', hm'⟩ := p.localstart_eq_pageIndex address
  omega

/-- A page number below `2 ^ 31` goes into the `int` unchanged. -/
theorem not_aliased_of_lt (hint : n < 2 ^ 31) (hlt : p.pageIndex address < 2 ^ 31) :
    ¬ p.Aliased address n := by
  rintro ⟨m, hm, j, hj, hlo, -⟩
  omega

/-- The pages of the pool are numbered from its start. -/
theorem pageIndex_page (p : Pool) (h : p.Ready) (hi : i < p.poolnumend) :
    p.pageIndex (p.pagestart + pageSize * i) = i := by
  have hend := h.end_le
  unfold pageIndex
  unfold pageSize at hend ⊢
  rw [u64Sub_of_le (by omega) (by omega)]
  omega

/-- An address whose page number is one of the pool is the address of that page. -/
theorem address_of_pageIndex (h : p.Ready) (haligned : address % pageSize = 0)
    (haddr : address < 2 ^ 64) (hi : p.pageIndex address < p.poolnumend) :
    address = p.pagestart + pageSize * p.pageIndex address := by
  have hstart := h.aligned
  have hend := h.end_le
  unfold pageIndex u64Sub at *
  unfold pageSize at *
  omega

/-- At an aliased address the call returns or reads in front of the array, and the pages it was
asked for are not in the pool. -/
theorem not_freesAsked_of_aliased (h : p.Ready) (haligned : address % pageSize = 0) (hn : 1 ≤ n)
    (hint : n < 2 ^ 31) (halias : p.Aliased address n) : ¬ p.FreesAsked address n := by
  obtain ⟨m, hm, j, hj, hlo, hhi, hbusy⟩ := halias
  have hsize := h.size
  unfold pagepoolSize at hsize
  have hlocal : p.localstart address = j := localstart_of_pageIndex hj (by omega) (by omega)
  rintro (⟨msg, hpanic⟩ | ⟨i, rfl, hend, -⟩)
  · rcases poolFreeU64_cases h.size haligned hint with
      ⟨hrange, -⟩ | ⟨-, -, -, hfault⟩ | ⟨i, hi, -, ⟨⟨k, hk, hfree⟩, -⟩ | ⟨-, hok⟩⟩
    · rw [hlocal] at hrange
      exact hrange ⟨hlo, hhi⟩
    · rw [hfault] at hpanic
      cases hpanic
    · have hij : j = i := hlocal.symm.trans hi
      subst hij
      exact hbusy k hk (Int.natCast_nonneg i) hfree
    · rw [hok] at hpanic
      cases hpanic
  · have hindex := p.pageIndex_page h (show i < p.poolnumend by omega)
    omega

/-- Where no multiple of `2 ^ 32` pages is lost, the `int` is the page number. So the checks are
about the page that was asked for, and if they pass it is in the pool and handed out. -/
theorem freesAsked_of_not_aliased (h : p.Ready) (haligned : address % pageSize = 0)
    (haddr : address < 2 ^ 64) (hn : 1 ≤ n) (hint : n < 2 ^ 31)
    (halias : ¬ p.Aliased address n) : p.FreesAsked address n := by
  obtain ⟨m, hm⟩ := p.localstart_eq_pageIndex address
  rcases poolFreeU64_cases h.size haligned hint with
    ⟨-, hpanic⟩ | ⟨hlo, hhi, hneg, -⟩ | ⟨i, hi, hend, ⟨-, hpanic⟩ | ⟨hbusy, hok⟩⟩
  · exact .inl hpanic
  · -- a negative `int` comes from a number that did not fit
    refine absurd ⟨m, by omega, p.localstart address, hm, hlo, hhi, ?_⟩ halias
    intro k hk hnonneg
    exact absurd hnonneg (not_le.mpr hneg)
  · exact .inl hpanic
  · right
    by_cases hm0 : m = 0
    · have hindex : p.pageIndex address = i := by
        subst hm0
        omega
      have hpage := address_of_pageIndex h haligned haddr (by omega)
      rw [hindex] at hpage
      exact ⟨i, hpage, hend, hbusy, hok⟩
    · refine absurd ⟨m, by omega, p.localstart address, hm, by omega, by omega, ?_⟩ halias
      intro k hk hnonneg
      rw [hi, Int.toNat_natCast]
      exact hbusy k hk

/-- `pool_free` does what it is asked to exactly when the page number is not one that the conversion
to an `int` takes to other pages; page numbers below `2 ^ 31` are not. -/
theorem freesAsked_iff (h : p.Ready) (haligned : address % pageSize = 0) (haddr : address < 2 ^ 64)
    (hn : 1 ≤ n) (hint : n < 2 ^ 31) :
    (p.FreesAsked address n ↔ ¬ p.Aliased address n) ∧
      (p.pageIndex address < 2 ^ 31 → ¬ p.Aliased address n) := by
  refine ⟨⟨?_, freesAsked_of_not_aliased h haligned haddr hn hint⟩, not_aliased_of_lt hint⟩
  intro hasked halias
  exact not_freesAsked_of_aliased h haligned hn hint halias hasked

/-- The second of three pages, of which two are handed out: `pool_free` frees this page and leaves
the first one busy. -/
theorem freesAsked_second : FreesAsked ((boot.poolInit 0x80000 0x83000).marked 0 2) 0x81000 1 := by
  have hready : (boot.poolInit 0x80000 0x83000).Ready :=
    ready_poolInit (by decide) (by decide) (by decide) (by decide)
  have hpool : ((boot.poolInit 0x80000 0x83000).marked 0 2).Ready :=
    ⟨hready.size, hready.start, hready.aligned, hready.end_le⟩
  have hindex : pageIndex ((boot.poolInit 0x80000 0x83000).marked 0 2) 0x81000 = 1 :=
    pageIndex_page _ hpool (i := 1) (by decide)
  have haddr : 0x81000 < 2 ^ 64 := by decide
  have hexact := freesAsked_iff hpool (by decide) haddr (le_refl 1) (by decide)
  refine hexact.1.mpr (hexact.2 ?_)
  rw [hindex]
  decide

/-- An address `2 ^ 44` bytes behind the first page frees the first page. -/
theorem far_address_frees_first :
    ¬ FreesAsked ((boot.poolInit 0x80000 0x83000).marked 0 1) (0x80000 + 2 ^ 44) 1 ∧
      (((boot.poolInit 0x80000 0x83000).marked 0 1).poolFreeU64 (0x80000 + 2 ^ 44) 1).map
        (fun q => q.pagepool 0) = .ok 0 := by
  have hok : (((boot.poolInit 0x80000 0x83000).marked 0 1).poolFreeU64 (0x80000 + 2 ^ 44) 1).map
      (fun q => q.pagepool 0) = .ok 0 := by
    decide +kernel
  refine ⟨?_, hok⟩
  rintro (⟨msg, hpanic⟩ | ⟨i, haddr, hend, -⟩)
  · rw [hpanic] at hok
    cases hok
  · have haddr : 0x80000 + 2 ^ 44 = 0x80000 + 4096 * i := haddr
    have hend : i + 1 ≤ 3 := hend
    omega

end Pool

end KernelAarch64.Core
