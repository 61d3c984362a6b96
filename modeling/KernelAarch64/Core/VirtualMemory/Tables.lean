import KernelAarch64.Core.VirtualMemory

/-!
# The pages that become tables

`my_pgdir_init` clears the page that it takes for the page directory. `my_pgdir_walk` links the
pages that it gets from `kalloc` as they are: what an earlier owner has left in such a page is read
as entries of a table. The calls here are followed with the pages that they use, so that each state
comes with the pages that were allocated for the directory.

`TableInv` is the invariant of such a history: the tables are among the pages allocated for the
directory, and an address that is translated is in the range of a call. It needs the pages that
become tables to have no valid entry (`Clean`), and then `tableRun_staysUnmapped` follows from it.
That it fails without this is `stale_entry_translates`, where the page that becomes the last table
has a word left by an earlier owner.
-/

namespace KernelAarch64.Core

open KernelAarch64.Lib

/-- `ROUNDDOWN(va, PAGE_SIZE)` -/
def roundDownPage (va : Nat) : Nat := va - va % pageSize

/-- The loop of `my_uvm_map`, with the pages that it leaves to later calls. The pages it has used
are tables now. -/
def uvmMapLoopPages (pgdir : Page) (va end_ : Nat) :
    (fuel : Nat) → (p pa : Nat) → Mem → List Page → Option (Except Stop (Mem × List Page × Int))
  | 0, _, _, _, _ => none
  | fuel + 1, p, pa, mem, kalloc =>
    if p ≤ end_ then
      match myPgdirWalk va true 3 mem kalloc pgdir with
      | .error stop => some (.error stop)
      | .ok (mem, kalloc, none) => some (.ok (mem, kalloc, -1))
      | .ok (mem, kalloc, some pte) =>
        uvmMapLoopPages pgdir va end_ fuel ((p + pageSize) % 2 ^ 64) ((pa + pageSize) % 2 ^ 64)
          (Function.update mem pte (pteAddress pa ||| pteUserData)) kalloc
    else some (.ok (mem, kalloc, 0))

/-- `ROUNDDOWN((uint64_t)va + sz - 1, PAGE_SIZE)` -/
def uvmMapEnd (va sz : Nat) : Nat := roundDownPage ((va + sz + 2 ^ 64 - 1) % 2 ^ 64)

/-- `my_uvm_map(pgdir, va, sz, pa)`, with the pages that it leaves to later calls. -/
def myUvmMapPages (fuel : Nat) (mem : Mem) (kalloc : List Page) (pgdir : Page) (va sz pa : Nat) :
    Option (Except Stop (Mem × List Page × Int)) :=
  uvmMapLoopPages pgdir va (uvmMapEnd va sz) fuel (roundDownPage va) pa mem kalloc

variable {mem mem' : Mem} {pgdir t : Page} {va pa end_ p fuel : Nat} {kalloc kalloc' used : List Page}
  {ret : Int}

/-- The two loops differ in what they return only: the second one also returns the pages that are
left. The induction is on the fuel. -/
theorem uvmMapLoop_eq_pages (pgdir : Page) (va end_ fuel p pa : Nat) (mem : Mem)
    (kalloc : List Page) :
    uvmMapLoop pgdir va end_ fuel p pa mem kalloc =
      (uvmMapLoopPages pgdir va end_ fuel p pa mem kalloc).map
        (Except.map fun r => (r.1, r.2.2)) := by
  induction fuel generalizing p pa mem kalloc with
  | zero => rfl
  | succ fuel ih =>
    rw [uvmMapLoop, uvmMapLoopPages]
    split
    · cases hwalk : myPgdirWalk va true 3 mem kalloc pgdir with
      | error stop => rfl
      | ok r =>
        obtain ⟨mem, kalloc, _ | pte⟩ := r
        · rfl
        · exact ih _ _ _ _
    · rfl

/-- The two calls differ in what they return only. -/
theorem myUvmMap_eq_pages (fuel : Nat) (mem : Mem) (kalloc : List Page) (pgdir : Page)
    (va sz pa : Nat) :
    myUvmMap fuel mem kalloc pgdir va sz pa =
      (myUvmMapPages fuel mem kalloc pgdir va sz pa).map (Except.map fun r => (r.1, r.2.2)) :=
  uvmMapLoop_eq_pages _ _ _ _ _ _ _ _

/-- A page that is mapped twice has the second entry. -/
theorem Mapped.trans {mem₁ : Mem} {e e' : Nat} (h : Mapped mem mem₁ pgdir va e)
    (h' : Mapped mem₁ mem' pgdir va e') : Mapped mem mem' pgdir va e' := by
  refine ⟨h'.tree, h'.found, ?_⟩
  intro va'
  rw [h'.translate va', h.translate va']
  split
  · rfl
  · rfl

/-! ## What a call does

The loop walks to `va` in every iteration. The first one creates the tables, the others write the
same entry again, so the call uses pages in its first iteration only. -/

/-- The page of an address begins at most a page before it. -/
theorem roundDownPage_spec (va : Nat) : roundDownPage va ≤ va ∧ va < roundDownPage va + pageSize ∧
    roundDownPage va % pageSize = 0 := by
  unfold roundDownPage pageSize
  omega

/-- Pages are ordered as their addresses. -/
theorem roundDownPage_mono {x y : Nat} (h : x ≤ y) : roundDownPage x ≤ roundDownPage y := by
  unfold roundDownPage pageSize
  omega

/-- `ROUNDDOWN` stays in the page. -/
theorem pageOf_roundDownPage (va : Nat) : pageOf (roundDownPage va) = pageOf va := by
  unfold pageOf roundDownPage pageSize
  omega

/-- After an iteration with the cursors `p` and `pa`, the rest of the loop writes the same entry, in
the end with the last physical page. It uses no page. -/
theorem uvmMapLoopPages_rest {mem₁ : Mem}
    (hmapped : Mapped mem mem₁ pgdir va (pteAddress pa ||| pteUserData))
    (hgrown : Grown mem mem₁ pgdir used) (hp : p ≤ end_)
    (haligned : p % pageSize = 0 ∧ end_ % pageSize = 0) (hend : end_ + pageSize < 2 ^ 64)
    (hpa : pa < 2 ^ 64)
    (hret : uvmMapLoopPages pgdir va end_ fuel ((p + pageSize) % 2 ^ 64) ((pa + pageSize) % 2 ^ 64)
      mem₁ kalloc = some (.ok (mem', kalloc', ret))) :
    ret = 0 ∧ kalloc' = kalloc ∧ Grown mem mem' pgdir used ∧
      Mapped mem mem' pgdir va (pteAddress ((pa + (end_ - p)) % 2 ^ 64) ||| pteUserData) := by
  induction fuel generalizing p pa mem₁ with
  | zero => cases hret
  | succ fuel ih =>
    have hnext : (p + pageSize) % 2 ^ 64 = p + pageSize := Nat.mod_eq_of_lt (by omega)
    rw [hnext, uvmMapLoopPages] at hret
    by_cases hmore : p + pageSize ≤ end_
    · -- the tables are there, so the walk finds the same entry
      obtain ⟨t, ht⟩ := hmapped.found
      rw [if_pos hmore] at hret
      simp only [myPgdirWalk_there true 3 ht] at hret
      have hmapped' := hmapped.trans (mapped_update hmapped.tree ht ((pa + pageSize) % 2 ^ 64))
      have hgrown' := hgrown.trans (grown_update hmapped.tree ht
        (pteAddress ((pa + pageSize) % 2 ^ 64) ||| pteUserData))
      rw [List.append_nil] at hgrown'
      obtain ⟨hzero, hkept, hgrown'', hlast⟩ := ih hmapped' hgrown' hmore
        ⟨(Nat.add_mod_right p pageSize).trans haligned.1, haligned.2⟩ (Nat.mod_lt _ (by decide)) hret
      have hcursor : ((pa + pageSize) % 2 ^ 64 + (end_ - (p + pageSize))) % 2 ^ 64 =
          (pa + (end_ - p)) % 2 ^ 64 := by
        omega
      rw [hcursor] at hlast
      exact ⟨hzero, hkept, hgrown'', hlast⟩
    · rw [if_neg hmore] at hret
      cases hret
      have hlast : end_ - p = 0 := by
        unfold pageSize at *
        omega
      rw [hlast, Nat.add_zero, Nat.mod_eq_of_lt hpa]
      exact ⟨rfl, rfl, hgrown, hmapped⟩

/-- A loop that returns has mapped the page of `va`, and its tables are made of the pages that it
has used. The entry is that of the last iteration. -/
theorem uvmMapLoopPages_mapped (htree : IsTree mem pgdir)
    (hfresh : ∀ f ∈ kalloc, IsFresh mem pgdir f) (hnodup : kalloc.Nodup) (hp : p ≤ end_)
    (haligned : p % pageSize = 0 ∧ end_ % pageSize = 0) (hend : end_ < 2 ^ 64) (hpa : pa < 2 ^ 64)
    (hret : uvmMapLoopPages pgdir va end_ fuel p pa mem kalloc = some (.ok (mem', kalloc', ret))) :
    ret = 0 ∧ ∃ used, kalloc = used ++ kalloc' ∧ Grown mem mem' pgdir used ∧
      Mapped mem mem' pgdir va (pteAddress ((pa + (end_ - p)) % 2 ^ 64) ||| pteUserData) := by
  cases fuel with
  | zero => cases hret
  | succ fuel =>
    rw [uvmMapLoopPages, if_pos hp] at hret
    rcases myPgdirWalk_write htree hfresh hnodup va with
      ⟨-, stop, hstop⟩ | ⟨mem₁, used, kalloc₁, pte, hused, hwalk, hwrite⟩
    · simp only [hstop] at hret
      cases hret
    · simp only [hwalk] at hret
      obtain ⟨hmapped, hgrown⟩ := hwrite pa
      have hnotlast : end_ ≠ lastPage := by
        rintro rfl
        have hnever : uvmMapLoop pgdir va lastPage fuel ((p + pageSize) % 2 ^ 64)
            ((pa + pageSize) % 2 ^ 64) _ kalloc₁ = none :=
          uvmMapLoop_last hmapped.tree hmapped.found (Nat.mod_lt _ (by decide))
            (by unfold pageSize at *; omega)
        rw [uvmMapLoop_eq_pages, hret] at hnever
        cases hnever
      have hbelow : end_ + pageSize < 2 ^ 64 := by
        unfold lastPage pageSize at *
        omega
      obtain ⟨hzero, hkept, hgrown', hlast⟩ :=
        uvmMapLoopPages_rest hmapped hgrown hp haligned hbelow hpa hret
      rw [hkept]
      exact ⟨hzero, used, hused, hgrown', hlast⟩

/-- The end of the loop is the address of a page. -/
theorem uvmMapEnd_spec (va sz : Nat) : uvmMapEnd va sz < 2 ^ 64 ∧ uvmMapEnd va sz % pageSize = 0 := by
  have hmod : (va + sz + 2 ^ 64 - 1) % 2 ^ 64 < 2 ^ 64 := Nat.mod_lt _ (by decide)
  have hround := roundDownPage_spec ((va + sz + 2 ^ 64 - 1) % 2 ^ 64)
  exact ⟨hround.1.trans_lt hmod, hround.2.2⟩

/-- A call that returns has mapped the page of `va`, unless the range is empty and it has done
nothing. -/
theorem myUvmMapPages_cases {sz : Nat} (htree : IsTree mem pgdir)
    (hfresh : ∀ f ∈ kalloc, IsFresh mem pgdir f) (hnodup : kalloc.Nodup) (hpa : pa < 2 ^ 64)
    (hret : myUvmMapPages fuel mem kalloc pgdir va sz pa = some (.ok (mem', kalloc', ret))) :
    ret = 0 ∧
      ((uvmMapEnd va sz < roundDownPage va ∧ mem' = mem ∧ kalloc' = kalloc) ∨
      (roundDownPage va ≤ uvmMapEnd va sz ∧ ∃ used, kalloc = used ++ kalloc' ∧
        Grown mem mem' pgdir used ∧ Mapped mem mem' pgdir va
          (pteAddress ((pa + (uvmMapEnd va sz - roundDownPage va)) % 2 ^ 64) ||| pteUserData))) := by
  obtain ⟨hlt, haligned⟩ := uvmMapEnd_spec va sz
  rw [myUvmMapPages] at hret
  rcases Nat.lt_or_ge (uvmMapEnd va sz) (roundDownPage va) with hempty | hp
  · cases fuel with
    | zero => cases hret
    | succ fuel =>
      rw [uvmMapLoopPages, if_neg (Nat.not_le.mpr hempty)] at hret
      cases hret
      exact ⟨rfl, .inl ⟨hempty, rfl, rfl⟩⟩
  · obtain ⟨hzero, hmapped⟩ := uvmMapLoopPages_mapped htree hfresh hnodup hp
      ⟨(roundDownPage_spec va).2.2, haligned⟩ hlt hpa hret
    exact ⟨hzero, .inr ⟨hp, hmapped⟩⟩

/-! ## Histories with the pages of the directory

The parameter `ok` says which pages may become tables. The result about unmapped addresses is for
clean ones, the counterexample for any. -/

/-- A call with 64-bit arguments, of any size and at any address, also where the sum of the two
wraps round. -/
structure MapCall.Words (c : MapCall) : Prop where
  va_lt : c.va < 2 ^ 64
  sz_lt : c.sz < 2 ^ 64
  pa_lt : c.pa < 2 ^ 64

/-- The page of `va` is one of those from `start` to `end` of the call. -/
def MapCall.Covers (c : MapCall) (va : Nat) : Prop :=
  ∃ p, roundDownPage c.va ≤ p ∧ p ≤ uvmMapEnd c.va c.sz ∧ p % pageSize = 0 ∧ pageOf p = pageOf va

/-- The states that calls of `my_uvm_map` and of `my_pgdir_walk` with `alloc` lead to from a
directory made by `my_pgdir_init`, with the pages that were allocated for the directory and the
calls of `my_uvm_map`. `kalloc` returns pages that are not allocated; `ok` is asked of each page
that becomes a table. Between calls the rest of the kernel may write all other pages. -/
inductive TableRun (ok : Mem → Page → Prop) : Mem → Page → List Page → List MapCall → Prop
  | init (mem : Mem) (page : Page) :
      TableRun ok (myPgdirInit mem page).1 (myPgdirInit mem page).2 [page] []
  | map {mem mem' : Mem} {pgdir : Page} {owned used : List Page} {calls : List MapCall}
      {c : MapCall} {fuel : Nat} {ret : Int} :
      TableRun ok mem pgdir owned calls → c.Words → used.Nodup →
      (∀ f ∈ used, f ∉ owned) → (∀ f ∈ used, ok mem f) →
      myUvmMapPages fuel mem used pgdir c.va c.sz c.pa = some (.ok (mem', [], ret)) →
      TableRun ok mem' pgdir (owned ++ used) (c :: calls)
  | walk {mem mem' : Mem} {pgdir : Page} {owned used : List Page} {calls : List MapCall} {va : Nat}
      {pte : Option Nat} :
      TableRun ok mem pgdir owned calls → used.Nodup →
      (∀ f ∈ used, f ∉ owned) → (∀ f ∈ used, ok mem f) →
      myPgdirWalk va true 3 mem used pgdir = .ok (mem', [], pte) →
      TableRun ok mem' pgdir (owned ++ used) calls
  | other {mem mem' : Mem} {pgdir : Page} {owned : List Page} {calls : List MapCall} :
      TableRun ok mem pgdir owned calls →
      (∀ t ∈ owned, ∀ i, mem' (t.entry i) = mem (t.entry i)) →
      TableRun ok mem' pgdir owned calls

/-- No entry of the page has `PTE_VALID`. -/
def Clean (mem : Mem) (f : Page) : Prop := ∀ i, mem (f.entry i) &&& pteValid = 0

/-- The values that `pgdir` takes in the loop of `my_pgdir_walk` without `alloc`: the tables whose
entries it reads. -/
def walkTables (va : Nat) : (index : Nat) → Mem → Page → List Page
  | 0, _, pgdir => [pgdir]
  | index + 1, mem, pgdir =>
    let p := pgdir.entry (ptx (index + 1) va)
    pgdir :: if mem p &&& pteValid ≠ 0 then walkTables va index mem (Page.ofPte (mem p)) else []

/-- `my_pgdir_walk(pgdir, va, 0)` returns `NULL` or points to an entry without `PTE_VALID`, and the
tables on its way are pages allocated for the directory. -/
def StaysUnmapped (mem : Mem) (pgdir : Page) (owned : List Page) (va : Nat) : Prop :=
  (∀ kalloc, ∃ pte, myPgdirWalk va false 3 mem kalloc pgdir = .ok (mem, kalloc, pte) ∧
    ∀ ptr, pte = some ptr → mem ptr &&& pteValid = 0) ∧
  ∀ t ∈ walkTables va 3 mem pgdir, t ∈ owned

/-- The tables are among the pages of the directory, and only pages in the range of a call are
translated. -/
structure TableInv (mem : Mem) (pgdir : Page) (owned : List Page) (calls : List MapCall) : Prop where
  tree : IsTree mem pgdir
  tables : ∀ p u, p.length ≤ 3 → tableAt mem pgdir p = some u → u ∈ owned
  covered : ∀ va e, translate mem pgdir va = some e → ∃ c ∈ calls, c.Covers va

variable {owned : List Page} {calls : List MapCall}

/-- A clean page that no table leads to can become a table. -/
theorem Clean.isFresh {f : Page} (hclean : Clean mem f)
    (hunreached : ∀ p, p.length ≤ 3 → tableAt mem pgdir p ≠ some f) : IsFresh mem pgdir f := by
  refine ⟨hunreached, ?_⟩
  intro i
  exact nextTable_invalid (not_not.mpr (hclean i))

/-- A page that is clean and not one of the directory can become a table. -/
theorem TableInv.fresh (h : TableInv mem pgdir owned calls) {f : Page} (hf : f ∉ owned)
    (hclean : Clean mem f) : IsFresh mem pgdir f :=
  hclean.isFresh fun p hp hreach => hf (h.tables p f hp hreach)

/-- A step that uses some pages for tables keeps the tables among the pages of the directory. -/
theorem TableInv.grow (h : TableInv mem pgdir owned calls) (hgrown : Grown mem mem' pgdir used) :
    ∀ p u, p.length ≤ 3 → tableAt mem' pgdir p = some u → u ∈ owned ++ used := by
  intro p u hp hu
  rcases hgrown.tables p u hp hu with hold | hnew
  · exact List.mem_append_left used (h.tables p u hp hold)
  · exact List.mem_append_right owned hnew

/-- A new directory has no table but itself, and translates nothing: `memset` has cleared all of its
entries. -/
theorem TableInv.init (mem : Mem) (page : Page) :
    TableInv (myPgdirInit mem page).1 page [page] [] := by
  have href := Refines.init mem page
  refine ⟨href.tree, ?_, ?_⟩
  · intro p u _ hu
    cases p with
    | nil =>
      cases hu
      exact List.mem_singleton_self _
    | cons i p =>
      rw [tableAt, Radix.descend, myPgdirInit_next] at hu
      cases hu
  · intro va e he
    rw [href.translate va] at he
    cases he

/-- A call of `my_uvm_map`: new tables are pages it has used, and what is newly translated is in its
range. That is where clean pages are needed, as an old entry would be translated too. -/
theorem TableInv.map {c : MapCall} (h : TableInv mem pgdir owned calls) (hc : c.Words)
    (hnodup : used.Nodup) (hnew : ∀ f ∈ used, f ∉ owned) (hclean : ∀ f ∈ used, Clean mem f)
    (hret : myUvmMapPages fuel mem used pgdir c.va c.sz c.pa = some (.ok (mem', [], ret))) :
    TableInv mem' pgdir (owned ++ used) (c :: calls) := by
  have hfresh : ∀ f ∈ used, IsFresh mem pgdir f := fun f hf => h.fresh (hnew f hf) (hclean f hf)
  obtain ⟨-, ⟨-, rfl, hunused⟩ | ⟨hp, used', hused, hgrown, hmapped⟩⟩ :=
    myUvmMapPages_cases h.tree hfresh hnodup hc.pa_lt hret
  · rw [← hunused, List.append_nil]
    refine ⟨h.tree, h.tables, ?_⟩
    intro va e he
    obtain ⟨c', hc', hcovers⟩ := h.covered va e he
    exact ⟨c', List.mem_cons_of_mem c hc', hcovers⟩
  · rw [List.append_nil] at hused
    subst hused
    refine ⟨hmapped.tree, h.grow hgrown, ?_⟩
    intro va e he
    rw [hmapped.translate va] at he
    split at he
    · next hpage =>
      refine ⟨c, List.mem_cons_self, roundDownPage c.va, Nat.le_refl _, hp, ?_, ?_⟩
      · exact (roundDownPage_spec c.va).2.2
      · rw [pageOf_roundDownPage, hpage]
    · obtain ⟨c', hc', hcovers⟩ := h.covered va e he
      exact ⟨c', List.mem_cons_of_mem c hc', hcovers⟩

/-- A walk with `alloc` translates nothing. The tables that it makes are clean pages, so that their
entries are not valid, and they join the owned ones. -/
theorem TableInv.walk {pte : Option Nat} (h : TableInv mem pgdir owned calls) (hnodup : used.Nodup)
    (hnew : ∀ f ∈ used, f ∉ owned) (hclean : ∀ f ∈ used, Clean mem f)
    (hret : myPgdirWalk va true 3 mem used pgdir = .ok (mem', [], pte)) :
    TableInv mem' pgdir (owned ++ used) calls := by
  have hfresh : ∀ f ∈ used, IsFresh mem pgdir f := fun f hf => h.fresh (hnew f hf) (hclean f hf)
  rcases myPgdirWalk_alloc va 3 (p := []) rfl h.tree rfl hfresh hnodup with
    ⟨-, stop, hstop⟩ | ⟨mem₁, used', kalloc', t, hused, hwalk, hwalked, hgrown⟩
  · rw [hstop] at hret
    cases hret
  · rw [hwalk] at hret
    cases hret
    rw [List.append_nil] at hused
    subst hused
    refine ⟨hwalked.tree, h.grow hgrown, ?_⟩
    intro va' e he
    rw [hwalked.same va'] at he
    exact h.covered va' e he

/-- Writes outside of the pages of the directory keep the invariant, as it speaks of the entries in
these pages only. -/
theorem TableInv.other (h : TableInv mem pgdir owned calls)
    (hsame : ∀ t ∈ owned, ∀ i, mem' (t.entry i) = mem (t.entry i)) :
    TableInv mem' pgdir owned calls := by
  have htables : SameTables mem mem' pgdir :=
    .of_entries fun p t hp ht => hsame t (h.tables p t hp ht)
  refine ⟨h.tree.congr htables, ?_, ?_⟩
  · intro p u hp hu
    rw [tableAt, Radix.descend_congr htables hp] at hu
    exact h.tables p u hp hu
  · intro va e he
    rw [htables.translate va] at he
    exact h.covered va e he

/-- The induction along a history. -/
theorem TableRun.inv (h : TableRun Clean mem pgdir owned calls) :
    TableInv mem pgdir owned calls := by
  induction h with
  | init mem page => exact TableInv.init mem page
  | map _ hc hnodup hnew hclean hret ih => exact ih.map hc hnodup hnew hclean hret
  | walk _ hnodup hnew hclean hret ih => exact ih.walk hnodup hnew hclean hret
  | other _ hsame ih => exact ih.other hsame

/-- The tables on the way of a walk are reached from the directory, along paths that go on from that
of the first. -/
theorem tableAt_of_mem_walkTables {index : Nat} {q : List (Fin 512)} {u : Page}
    (hq : q.length + index = 3) (ht : tableAt mem pgdir q = some t)
    (hu : u ∈ walkTables va index mem t) :
    ∃ p, q.length ≤ p.length ∧ p.length ≤ 3 ∧ tableAt mem pgdir p = some u := by
  induction index generalizing t q with
  | zero =>
    rw [walkTables, List.mem_singleton] at hu
    exact ⟨q, Nat.le_refl _, by omega, hu ▸ ht⟩
  | succ index ih =>
    rw [walkTables] at hu
    rcases List.mem_cons.mp hu with rfl | hu
    · exact ⟨q, Nat.le_refl _, by omega, ht⟩
    · split at hu
      · next hvalid =>
        have hnext : tableAt mem pgdir (q ++ [ptx (index + 1) va]) =
            some (Page.ofPte (mem (t.entry (ptx (index + 1) va)))) := by
          rw [tableAt, Radix.descend_concat_of ht]
          exact nextTable_valid hvalid
        have hlength : (q ++ [ptx (index + 1) va]).length = q.length + 1 := List.length_append
        obtain ⟨p, hqp, hp, hreach⟩ := ih (by omega) hnext hu
        exact ⟨p, by omega, hp, hreach⟩
      · cases hu

/-- In every history in which the pages that become tables have no valid entry, an address in the
range of no call stays unmapped, and is looked up in tables of the directory only. -/
theorem tableRun_staysUnmapped (h : TableRun Clean mem pgdir owned calls)
    (hva : ∀ c ∈ calls, ¬ c.Covers va) : StaysUnmapped mem pgdir owned va := by
  have hinv := h.inv
  have hnone : translate mem pgdir va = none := by
    rw [Option.eq_none_iff_forall_ne_some]
    intro e he
    obtain ⟨c, hc, hcovers⟩ := hinv.covered va e he
    exact hva c hc hcovers
  refine ⟨walk_invalid hnone, ?_⟩
  intro t ht
  obtain ⟨p, -, hp, hreach⟩ := tableAt_of_mem_walkTables (q := []) rfl rfl ht
  exact hinv.tables p t hp hreach

/-- A memory in which one page has an entry that is not zero, left by an earlier owner. -/
def staleMem (f : Page) (i : Fin 512) (e : Nat) : Mem := Function.update (fun _ => 0) (f.entry i) e

/-- A call for one page at `0x1000` covers `0x1000` and not `0x2000`. -/
theorem not_covers_next : ¬ MapCall.Covers ⟨0x1000, 1, 0x80000⟩ 0x2000 := by
  rintro ⟨p, hstart, hend, -, hpage⟩
  have hp : p = 0x1000 := Nat.le_antisymm hend hstart
  subst hp
  revert hpage
  decide

/-- When `0x1000` is mapped and page 3 becomes its last table, `0x2000` is translated by the entry
that was left there. -/
theorem stale_entry_translates : ∃ mem,
    TableRun (fun _ _ => True) mem (kernelPage 0)
        [kernelPage 0, kernelPage 1, kernelPage 2, kernelPage 3] [⟨0x1000, 1, 0x80000⟩] ∧
      (∀ c ∈ [MapCall.mk 0x1000 1 0x80000], ¬ c.Covers 0x2000) ∧
      ¬ StaysUnmapped mem (kernelPage 0)
        [kernelPage 0, kernelPage 1, kernelPage 2, kernelPage 3] 0x2000 := by
  have hcall : MapCall.Words ⟨0x1000, 1, 0x80000⟩ := by
    constructor <;> decide
  refine ⟨_, .map (.init (staleMem (kernelPage 3) 2 (0x90000 ||| pteUserData)) (kernelPage 0)) hcall
    (by decide) (by decide) (fun _ _ => trivial)
    (show myUvmMapPages 2 _ [kernelPage 1, kernelPage 2, kernelPage 3] _ _ _ _ = _ from rfl), ?_, ?_⟩
  · intro c hc
    rw [List.mem_singleton] at hc
    subst hc
    exact not_covers_next
  · rintro ⟨hwalk, -⟩
    obtain ⟨pte, hpte, hinvalid⟩ := hwalk []
    have hentry : pte = some ((kernelPage 3).entry 2) := by
      cases hpte
      rfl
    have := hinvalid _ hentry
    revert this
    decide +kernel

/-- In a memory of zeros all pages are clean. -/
theorem clean_zero (f : Page) : Clean (myPgdirInit (fun _ => 0) (kernelPage 0)).1 f := by
  intro i
  show (if _ then 0 else 0) &&& pteValid = 0
  rw [ite_self]
  rfl

/-- In a memory of zeros, mapping `0x1000` leaves `0x2000` unmapped. -/
theorem tableRun_staysUnmapped_next : ∃ mem,
    TableRun Clean mem (kernelPage 0)
        [kernelPage 0, kernelPage 1, kernelPage 2, kernelPage 3] [⟨0x1000, 1, 0x80000⟩] ∧
      StaysUnmapped mem (kernelPage 0)
        [kernelPage 0, kernelPage 1, kernelPage 2, kernelPage 3] 0x2000 := by
  have hcall : MapCall.Words ⟨0x1000, 1, 0x80000⟩ := by
    constructor <;> decide
  obtain ⟨mem, hrun⟩ : ∃ mem, TableRun Clean mem (kernelPage 0)
      [kernelPage 0, kernelPage 1, kernelPage 2, kernelPage 3] [⟨0x1000, 1, 0x80000⟩] :=
    ⟨_, .map (.init (fun _ => 0) (kernelPage 0)) hcall (by decide) (by decide)
      (fun f _ => clean_zero f)
      (show myUvmMapPages 2 _ [kernelPage 1, kernelPage 2, kernelPage 3] _ _ _ _ = _ from rfl)⟩
  refine ⟨mem, hrun, tableRun_staysUnmapped hrun ?_⟩
  intro c hc
  rw [List.mem_singleton] at hc
  subst hc
  exact not_covers_next

end KernelAarch64.Core
