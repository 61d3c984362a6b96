import KernelAarch64.Core.VirtualMemory.Tables

/-!
# Mapping more than one page

The loop of `my_uvm_map` has a cursor `p` for the virtual and a cursor `pa` for the physical
address, and walks to the entry of `va` in every iteration. For a range of several pages all
iterations write the same entry, each with the next physical page.

`rangeMapped_iff` says when this is what was asked for: exactly if the range lies in one page. Of a
longer range the first page has the entry of the last one (`myUvmMap_range`). For one page nothing
depends on the tables away from `va`: `rangeMapped_one_page` asks for a clear way to `va` only,
which a tree and fresh pages give (`clearWay_of_tree`). The proof follows the walk with `alloc`
(`myPgdirWalk_way`).
-/

namespace KernelAarch64.Core

open KernelAarch64.Lib

/-- `USERTOP` -/
abbrev userTop : Nat := 0x0001000000000000

/-- Every page of the range has its entry: `my_pgdir_walk` finds it without `alloc`. -/
def RangeMapped (mem : Mem) (pgdir : Page) (va sz pa : Nat) : Prop :=
  ∀ k kalloc, roundDownPage va + k * pageSize ≤ roundDownPage (va + sz - 1) →
    ∃ ptr, myPgdirWalk (roundDownPage va + k * pageSize) false 3 mem kalloc pgdir =
        .ok (mem, kalloc, some ptr) ∧
      mem ptr = (pteAddress pa + k * pageSize) % 2 ^ 64 ||| pteUserData

variable {mem mem' : Mem} {pgdir : Page} {va pa : Nat} {kalloc : List Page}

/-! ## One page, whatever the other tables are

For a range in one page the call looks at the tables on the way to `va` and at nothing else. These
have to be different tables, and the pages for the tables that are missing need no entry cleared but
those at the indices of `va`. The rest of the directory may be anything, not only a tree. -/

variable {t u v : Page} {index : Nat}

/-- The way goes on with the table that the entry leads to. -/
theorem walkTables_some (h : nextTable (tables mem t (ptx (index + 1) va)) = some v) :
    walkTables va (index + 1) mem t = t :: walkTables va index mem v := by
  have hvalid : mem (t.entry (ptx (index + 1) va)) &&& pteValid ≠ 0 :=
    isSome_nextTable.mp (Option.isSome_of_eq_some h)
  obtain rfl : Page.ofPte (mem (t.entry (ptx (index + 1) va))) = v :=
    Option.some.inj ((nextTable_valid hvalid).symm.trans h)
  rw [walkTables]
  exact congrArg (t :: ·) (if_pos hvalid)

/-- The way ends at an entry that leads nowhere. -/
theorem walkTables_none (h : nextTable (tables mem t (ptx (index + 1) va)) = none) :
    walkTables va (index + 1) mem t = [t] := by
  have hinvalid : ¬ mem (t.entry (ptx (index + 1) va)) &&& pteValid ≠ 0 := by
    rw [← isSome_nextTable]
    exact (Option.not_isSome_iff_eq_none).mpr h
  rw [walkTables]
  exact congrArg (t :: ·) (if_neg hinvalid)

/-- The tables on the way from `t` to `va` are different, and `u` is the last one. -/
structure Way (mem : Mem) (t : Page) (va index : Nat) (u : Page) : Prop where
  found : tableAt mem t (pathFrom va index) = some u
  nodup : (walkTables va index mem t).Nodup

/-- A table in front of a way that does not pass it. -/
theorem Way.cons (h : Way mem v va index u)
    (hnext : nextTable (tables mem t (ptx (index + 1) va)) = some v)
    (ht : t ∉ walkTables va index mem v) : Way mem t va (index + 1) u := by
  constructor
  · rw [pathFrom, tableAt, Radix.descend, hnext]
    exact h.found
  · rw [walkTables_some hnext]
    exact List.nodup_cons.mpr ⟨ht, h.nodup⟩

/-- A way with more than one table, without the first. -/
theorem Way.tail (h : Way mem t va (index + 1) u) :
    ∃ v, nextTable (tables mem t (ptx (index + 1) va)) = some v ∧
      t ∉ walkTables va index mem v ∧ Way mem v va index u := by
  have hfound := h.found
  rw [pathFrom, tableAt, Radix.descend] at hfound
  obtain ⟨v, hnext, hv⟩ := Option.bind_eq_some_iff.mp hfound
  have hnodup := h.nodup
  rw [walkTables_some hnext, List.nodup_cons] at hnodup
  exact ⟨v, hnext, hnodup.1, hv, hnodup.2⟩

/-- The last table is on the way, at its end. So a write to it is a write to a table of the walk. -/
theorem Way.last_mem (h : Way mem t va index u) : u ∈ walkTables va index mem t := by
  induction index generalizing t with
  | zero =>
    cases h.found
    exact List.mem_singleton_self u
  | succ index ih =>
    obtain ⟨v, hnext, -, hv⟩ := h.tail
    rw [walkTables_some hnext]
    exact List.mem_cons_of_mem t (ih hv)

/-- Entries of one table do not belong to another. -/
theorem tables_update_of_ne (hne : t ≠ u) (i j : Fin 512) (e : Nat) :
    tables (Function.update mem (u.entry j) e) t i = tables mem t i := by
  show Function.update mem (u.entry j) e (t.entry i) = mem (t.entry i)
  exact Function.update_of_ne (fun h => hne (Page.entry_inj h).1) e mem

/-- Writing an entry of the last table does not change how it is found. -/
theorem Way.found_update (h : Way mem t va index u) (j : Fin 512) (e : Nat) :
    tableAt (Function.update mem (u.entry j) e) t (pathFrom va index) = some u := by
  induction index generalizing t with
  | zero => exact h.found
  | succ index ih =>
    obtain ⟨v, hnext, ht, hv⟩ := h.tail
    have hne : t ≠ u := by
      intro heq
      exact ht (heq ▸ hv.last_mem)
    rw [pathFrom, tableAt, Radix.descend, tables_update_of_ne hne, hnext]
    exact ih hv

/-- What the walk to `va` asks for: the tables on its way are different, and the pages for those
that are missing are others, without a valid entry at the indices of `va`. -/
structure ClearWay (mem : Mem) (t : Page) (va index : Nat) (kalloc : List Page) : Prop where
  nodup : (walkTables va index mem t).Nodup
  distinct : kalloc.Nodup
  new : ∀ f ∈ kalloc, f ∉ walkTables va index mem t
  empty : ∀ f ∈ kalloc, ∀ k, nextTable (tables mem f (ptx k va)) = none

/-- In a tree, no table is on the way to an address twice: it would be reached along paths of
different length. -/
theorem nodup_walkTables_of_tree (htree : IsTree mem pgdir) {q : List (Fin 512)}
    (hq : q.length + index = 3) (ht : tableAt mem pgdir q = some t) :
    (walkTables va index mem t).Nodup := by
  induction index generalizing t q with
  | zero => exact List.nodup_singleton t
  | succ index ih =>
    cases hnext : nextTable (tables mem t (ptx (index + 1) va)) with
    | none =>
      rw [walkTables_none hnext]
      exact List.nodup_singleton t
    | some v =>
      have hv : tableAt mem pgdir (q ++ [ptx (index + 1) va]) = some v := by
        rw [tableAt, Radix.descend_concat_of ht, hnext]
      have hlength : (q ++ [ptx (index + 1) va]).length = q.length + 1 := List.length_append
      rw [walkTables_some hnext, List.nodup_cons]
      refine ⟨?_, ih (by omega) hv⟩
      -- a table further down is reached along a longer path
      intro hmem
      obtain ⟨p, hqp, hp, hreach⟩ := tableAt_of_mem_walkTables (by omega) hv hmem
      have heq := htree q p t (by omega) hp ht hreach
      subst heq
      omega

/-- Directories built by the calls ask for no more than they have. -/
theorem clearWay_of_tree (htree : IsTree mem pgdir) (hfresh : ∀ f ∈ kalloc, IsFresh mem pgdir f)
    (hnodup : kalloc.Nodup) (va : Nat) : ClearWay mem pgdir va 3 kalloc := by
  refine ⟨nodup_walkTables_of_tree htree (q := []) rfl rfl, hnodup, ?_, ?_⟩
  · intro f hf hmem
    obtain ⟨p, -, hp, hreach⟩ := tableAt_of_mem_walkTables (q := []) rfl rfl hmem
    exact (hfresh f hf).unreached p hp hreach
  · intro f hf k
    exact (hfresh f hf).empty (ptx k va)

/-- What the walk to `va` leaves: the way passes the tables of before and pages from `kalloc`, and
no other table was written. -/
structure WayMade (mem mem' : Mem) (t : Page) (va index : Nat) (kalloc : List Page) (u : Page) :
    Prop where
  way : Way mem' t va index u
  known : ∀ f ∈ walkTables va index mem' t, f ∈ walkTables va index mem t ∨ f ∈ kalloc
  frame : ∀ f, f ∉ walkTables va index mem t → f ∉ kalloc → tables mem' f = tables mem f

/-- From a table on that the entry of `t` leads to, one level up. What the walk makes below does not
touch `t`, which is neither one of its tables nor one of the pages it takes. -/
theorem WayMade.cons (h : WayMade mem mem' v va index kalloc u)
    (hnext : nextTable (tables mem t (ptx (index + 1) va)) = some v)
    (ht : t ∉ walkTables va index mem v) (hkalloc : t ∉ kalloc) :
    WayMade mem mem' t va (index + 1) kalloc u := by
  have hnext' : nextTable (tables mem' t (ptx (index + 1) va)) = some v := by
    rw [h.frame t ht hkalloc, hnext]
  have htv : t ∉ walkTables va index mem' v := by
    intro hmem
    rcases h.known t hmem with hold | hnew
    · exact ht hold
    · exact hkalloc hnew
  refine ⟨h.way.cons hnext' htv, ?_, ?_⟩
  · intro f hf
    rw [walkTables_some hnext', List.mem_cons] at hf
    rw [walkTables_some hnext, List.mem_cons, or_assoc]
    exact hf.imp_right (h.known f)
  · intro f hf hnew
    rw [walkTables_some hnext, List.mem_cons, not_or] at hf
    exact h.frame f hf.2 hnew

/-- A page that has no valid entry at the indices of `va` is the last one on its way. -/
theorem walkTables_empty (h : ∀ k, nextTable (tables mem t (ptx k va)) = none) :
    walkTables va index mem t = [t] := by
  cases index with
  | zero => rfl
  | succ index => exact walkTables_none (h (index + 1))

/-- The memory after a page is linked to the entry of `t` at the index of `va`. -/
def linkTable (mem : Mem) (t : Page) (va index : Nat) (f : Page) : Mem :=
  Function.update mem (t.entry (ptx (index + 1) va)) (k2p f.addr ||| pteTable)

/-- The pages from `kalloc` are as empty as before the link, since none of them is `t`. -/
theorem ClearWay.empty_link {f g : Page} (h : ClearWay mem t va (index + 1) (f :: kalloc))
    (hg : g ∈ f :: kalloc) (k : Nat) :
    nextTable (tables (linkTable mem t va index f) g (ptx k va)) = none := by
  have hne : g ≠ t := by
    intro heq
    apply h.new g hg
    rw [heq, walkTables]
    exact List.mem_cons_self
  rw [linkTable, tables_update_of_ne hne]
  exact h.empty g hg k

/-- What linking the first page from `kalloc` leaves for the walk from there on. -/
theorem ClearWay.link {f : Page} (h : ClearWay mem t va (index + 1) (f :: kalloc)) :
    ClearWay (linkTable mem t va index f) f va index kalloc := by
  have hnodup := List.nodup_cons.mp h.distinct
  have hsingle : walkTables va index (linkTable mem t va index f) f = [f] :=
    walkTables_empty (h.empty_link List.mem_cons_self)
  refine ⟨?_, hnodup.2, ?_, fun g hg => h.empty_link (List.mem_cons_of_mem f hg)⟩
  · rw [hsingle]
    exact List.nodup_singleton f
  · intro g hg
    rw [hsingle, List.mem_singleton]
    intro heq
    exact hnodup.1 (heq ▸ hg)

/-- From a page on that was linked to the entry of `t`. The page was not on the way and has no valid
entry at the indices of `va`, so the way goes on through pages from `kalloc` only. -/
theorem WayMade.link {f : Page} (h : ClearWay mem t va (index + 1) (f :: kalloc))
    (hmade : WayMade (linkTable mem t va index f) mem' f va index kalloc u) :
    WayMade mem mem' t va (index + 1) (f :: kalloc) u := by
  have ht : t ∈ walkTables va (index + 1) mem t := by
    rw [walkTables]
    exact List.mem_cons_self
  have hnew : t ∉ f :: kalloc := fun hmem => h.new t hmem ht
  rw [List.mem_cons, not_or] at hnew
  have hsingle : walkTables va index (linkTable mem t va index f) f = [f] :=
    walkTables_empty (h.empty_link List.mem_cons_self)
  have hknown : ∀ g ∈ walkTables va index mem' f, g ∈ f :: kalloc := by
    intro g hg
    have hcases := hmade.known g hg
    rwa [hsingle, List.mem_singleton, ← List.mem_cons] at hcases
  have hnext : nextTable (tables mem' t (ptx (index + 1) va)) = some f := by
    rw [hmade.frame t (by rw [hsingle, List.mem_singleton]; exact hnew.1) hnew.2, linkTable]
    show nextTable (Function.update mem (t.entry _) _ (t.entry _)) = some f
    rw [Function.update_self, nextTable_link]
  refine ⟨hmade.way.cons hnext fun hmem => h.new t (hknown t hmem) ht, ?_, ?_⟩
  · intro g hg
    rw [walkTables_some hnext, List.mem_cons] at hg
    rcases hg with rfl | hg
    · exact .inl ht
    · exact .inr (hknown g hg)
  · intro g hg hkalloc
    rw [List.mem_cons, not_or] at hkalloc
    have hne : g ≠ t := fun heq => hg (heq ▸ ht)
    rw [hmade.frame g (by rw [hsingle, List.mem_singleton]; exact hkalloc.1) hkalloc.2]
    funext i
    exact tables_update_of_ne hne i _ _

/-- The walk with `alloc` makes the way to `va`, by induction on the levels that are left. At a
valid entry it goes on, at another one it links a page first. -/
theorem myPgdirWalk_way {pte : Option Nat} {kalloc' : List Page} (h : ClearWay mem t va index kalloc)
    (hret : myPgdirWalk va true index mem kalloc t = .ok (mem', kalloc', pte)) :
    ∃ u, pte = some (u.entry (ptx 0 va)) ∧ WayMade mem mem' t va index kalloc u := by
  induction index generalizing mem t kalloc with
  | zero =>
    cases hret
    refine ⟨t, rfl, ⟨rfl, h.nodup⟩, fun f hf => .inl hf, fun _ _ _ => rfl⟩
  | succ index ih =>
    rw [myPgdirWalk_succ] at hret
    by_cases hvalid : mem (t.entry (ptx (index + 1) va)) &&& pteValid ≠ 0
    · rw [if_pos hvalid] at hret
      have hnext := nextTable_valid hvalid
      have hway : walkTables va (index + 1) mem t =
          t :: walkTables va index mem (Page.ofPte (mem (t.entry (ptx (index + 1) va)))) :=
        walkTables_some hnext
      have hnodup := h.nodup
      rw [hway, List.nodup_cons] at hnodup
      have hclear : ClearWay mem (Page.ofPte (mem (t.entry (ptx (index + 1) va)))) va index kalloc :=
        ⟨hnodup.2, h.distinct, fun f hf hmem => h.new f hf (hway ▸ List.mem_cons_of_mem t hmem), h.empty⟩
      obtain ⟨u, hpte, hmade⟩ := ih hclear hret
      have hkalloc : t ∉ kalloc := fun ht => h.new t ht (hway ▸ List.mem_cons_self)
      exact ⟨u, hpte, hmade.cons hnext hnodup.1 hkalloc⟩
    · rw [if_neg hvalid, if_neg (by decide)] at hret
      cases kalloc with
      | nil => cases hret
      | cons f kalloc =>
        obtain ⟨u, hpte, hmade⟩ := ih h.link hret
        exact ⟨u, hpte, hmade.link h⟩

/-- A call for one page that returns `0` has walked to `va` once, and written the entry it came to.
The cursor is past the end after the first iteration. -/
theorem myUvmMap_once {fuel sz : Nat} (hsz : 1 ≤ sz) (htop : va + sz - 1 < userTop)
    (hpage : roundDownPage va = roundDownPage (va + sz - 1))
    (hret : myUvmMap fuel mem kalloc pgdir va sz pa = some (.ok (mem', 0))) :
    ∃ mem₁ kalloc' pte, myPgdirWalk va true 3 mem kalloc pgdir = .ok (mem₁, kalloc', some pte) ∧
      mem' = Function.update mem₁ pte (pteAddress pa ||| pteUserData) := by
  have hlast : (va + sz + 2 ^ 64 - 1) % 2 ^ 64 = va + sz - 1 := by
    unfold userTop at htop
    omega
  have hend : uvmMapEnd va sz = roundDownPage va := by rw [uvmMapEnd, hlast, hpage]
  have hloop : uvmMapLoop pgdir va (uvmMapEnd va sz) fuel (roundDownPage va) pa mem kalloc =
      some (.ok (mem', 0)) := hret
  rw [hend] at hloop
  have hnext : ¬ (roundDownPage va + pageSize) % 2 ^ 64 ≤ roundDownPage va := by
    have hstart := roundDownPage_spec va
    unfold userTop pageSize at *
    omega
  cases fuel with
  | zero => cases hloop
  | succ fuel =>
    rw [uvmMapLoop, if_pos (Nat.le_refl _)] at hloop
    cases hwalk : myPgdirWalk va true 3 mem kalloc pgdir with
    | error stop => simp [hwalk] at hloop
    | ok r =>
      obtain ⟨mem₁, kalloc', _ | pte⟩ := r
      · simp [hwalk] at hloop
      · simp only [hwalk] at hloop
        refine ⟨mem₁, kalloc', pte, rfl, ?_⟩
        -- the cursor is past the end after one turn
        cases fuel with
        | zero => cases hloop
        | succ fuel =>
          rw [uvmMapLoop, if_neg hnext] at hloop
          cases hloop
          rfl

/-- A call that returns `0` has mapped a range in one page, if the way to it is clear. -/
theorem rangeMapped_one_page {fuel sz : Nat} (h : ClearWay mem pgdir va 3 kalloc) (hsz : 1 ≤ sz)
    (htop : va + sz - 1 < userTop) (hpa : pa < 2 ^ 64)
    (hpage : roundDownPage va = roundDownPage (va + sz - 1))
    (hret : myUvmMap fuel mem kalloc pgdir va sz pa = some (.ok (mem', 0))) :
    RangeMapped mem' pgdir va sz pa := by
  obtain ⟨mem₁, kalloc', pte, hwalk, rfl⟩ := myUvmMap_once hsz htop hpage hret
  obtain ⟨u, hpte, hmade⟩ := myPgdirWalk_way h hwalk
  cases hpte
  intro k kalloc hk
  have hk0 : k = 0 := by
    unfold pageSize at *
    omega
  subst hk0
  rw [Nat.zero_mul, Nat.add_zero, Nat.add_zero, myPgdirWalk_find]
  obtain ⟨hpath, hindex⟩ := (path_eq_iff (roundDownPage va) va).mpr (pageOf_roundDownPage va)
  have hfound := hmade.way.found_update (ptx 0 va) (pteAddress pa ||| pteUserData)
  refine ⟨u.entry (ptx 0 va), ?_, ?_⟩
  · rw [show pathFrom (roundDownPage va) 3 = pathFrom va 3 from hpath, hfound, Option.map_some, hindex]
  · rw [Function.update_self]
    congr 1
    unfold pteAddress
    omega

/-! ## Ranges

Here the tables form a tree, so that the entries of the other pages stay what they were. -/

/-- What `my_uvm_map` leaves for a range: the page of `va` has an entry with the last physical page,
and every other page is translated as before. -/
theorem myUvmMap_range {fuel sz : Nat} {ret : Int} (htree : IsTree mem pgdir)
    (hfresh : ∀ f ∈ kalloc, IsFresh mem pgdir f) (hnodup : kalloc.Nodup) (hsz : 1 ≤ sz)
    (htop : va + sz - 1 < userTop) (hpa : pa < 2 ^ 64)
    (hret : myUvmMap fuel mem kalloc pgdir va sz pa = some (.ok (mem', ret))) :
    Mapped mem mem' pgdir va (pteAddress ((pa + (roundDownPage (va + sz - 1) - roundDownPage va)) %
      2 ^ 64) ||| pteUserData) := by
  have hend : uvmMapEnd va sz = roundDownPage (va + sz - 1) := by
    have hlast : (va + sz + 2 ^ 64 - 1) % 2 ^ 64 = va + sz - 1 := by
      unfold userTop at htop
      omega
    rw [uvmMapEnd, hlast]
  have hle : roundDownPage va ≤ roundDownPage (va + sz - 1) := roundDownPage_mono (by omega)
  rw [myUvmMap_eq_pages] at hret
  obtain ⟨r, hpages, hr⟩ := Option.map_eq_some_iff.mp hret
  cases r with
  | error stop => cases hr
  | ok r =>
    obtain ⟨mem₁, kalloc', ret'⟩ := r
    cases hr
    obtain ⟨-, ⟨hempty, -⟩ | ⟨-, used, -, -, hmapped⟩⟩ :=
      myUvmMapPages_cases htree hfresh hnodup hpa hpages
    · omega
    · rwa [hend] at hmapped

/-- The entry that the walk without `alloc` finds is the one that the path through the tables leads
to. -/
theorem walk_eq_iff (e : Nat) (he : e &&& pteValid ≠ 0) :
    (∀ kalloc, ∃ ptr, myPgdirWalk va false 3 mem kalloc pgdir = .ok (mem, kalloc, some ptr) ∧
      mem ptr = e) ↔ translate mem pgdir va = some e := by
  constructor
  · intro h
    obtain ⟨ptr, hwalk, hptr⟩ := h []
    exact (walk_valid_iff [] e).mp ⟨ptr, hwalk, by rwa [hptr], hptr⟩
  · intro h kalloc
    obtain ⟨ptr, hwalk, -, hptr⟩ := (walk_valid_iff kalloc e).mpr h
    exact ⟨ptr, hwalk, hptr⟩

/-- The entry of a user page is valid. -/
theorem pteUserData_valid {x : Nat} (hx : x % 4096 = 0) : (x ||| pteUserData) &&& pteValid ≠ 0 := by
  rw [aligned_or_eq_add hx (by decide), and_pteValid]
  unfold pteUserData
  omega

/-- A call that returns `0` has mapped the range exactly if the range lies in one page. The table is
a tree, and the pages for the tables that are missing are unused and have no valid entry; for a
range in one page it is enough that the way to `va` is clear. -/
theorem rangeMapped_iff {fuel sz : Nat} (htree : IsTree mem pgdir)
    (hfresh : ∀ f ∈ kalloc, IsFresh mem pgdir f) (hnodup : kalloc.Nodup) (hsz : 1 ≤ sz)
    (htop : va + sz - 1 < userTop) (hpa : pa < 2 ^ 64)
    (hret : myUvmMap fuel mem kalloc pgdir va sz pa = some (.ok (mem', 0))) :
    RangeMapped mem' pgdir va sz pa ↔ roundDownPage va = roundDownPage (va + sz - 1) := by
  have hmapped := myUvmMap_range htree hfresh hnodup hsz htop hpa hret
  have hstart := roundDownPage_spec va
  have hend := roundDownPage_spec (va + sz - 1)
  have hle : roundDownPage va ≤ roundDownPage (va + sz - 1) := roundDownPage_mono (by omega)
  have haligned : ∀ x, pteAddress x % 4096 = 0 := by
    intro x
    unfold pteAddress
    omega
  have hzero : (pteAddress pa + 0 * pageSize) % 2 ^ 64 = pteAddress pa := by
    unfold pteAddress
    omega
  have hfirst : translate mem' pgdir (roundDownPage va + 0 * pageSize) =
      some (pteAddress ((pa + (roundDownPage (va + sz - 1) - roundDownPage va)) % 2 ^ 64) |||
        pteUserData) := by
    rw [Nat.zero_mul, Nat.add_zero, hmapped.translate, if_pos (pageOf_roundDownPage va)]
  constructor
  · intro hrange
    -- the first page has the entry of the last
    have hwalk := fun kalloc => hrange 0 kalloc (by omega)
    rw [walk_eq_iff _ (by rw [hzero]; exact pteUserData_valid (haligned pa)), hfirst, hzero,
      Option.some.injEq, aligned_or_eq_add (haligned _) (by decide),
      aligned_or_eq_add (haligned _) (by decide)] at hwalk
    unfold pteAddress userTop pageSize at *
    omega
  · intro hsame
    exact rangeMapped_one_page (clearWay_of_tree htree hfresh hnodup va) hsz htop hpa hsame hret

/-- A range of two pages: the first is mapped to the second physical page. -/
theorem two_pages_not_mapped : ∃ mem,
    myUvmMap 3 (myPgdirInit (fun _ => 0) (kernelPage 0)).1
        [kernelPage 1, kernelPage 2, kernelPage 3] (kernelPage 0) 0x1000 0x2000 0x80000 =
      some (.ok (mem, 0)) ∧
    ¬ RangeMapped mem (kernelPage 0) 0x1000 0x2000 0x80000 := by
  refine ⟨_, rfl, ?_⟩
  intro hrange
  obtain ⟨ptr, hwalk, hptr⟩ := hrange 0 [] (by decide)
  have hentry : ptr = (kernelPage 3).entry 1 := by
    cases hwalk
    rfl
  subst hentry
  revert hptr
  decide +kernel

/-- A range of 256 bytes in the middle of a page, which begins at an address that is no multiple of
the size of a page. -/
theorem rangeMapped_within_page : ∃ mem,
    myUvmMap 2 (myPgdirInit (fun _ => 0) (kernelPage 0)).1
        [kernelPage 1, kernelPage 2, kernelPage 3] (kernelPage 0) 0x1800 0x100 0x80000 =
      some (.ok (mem, 0)) ∧
    RangeMapped mem (kernelPage 0) 0x1800 0x100 0x80000 := by
  obtain ⟨mem, hret⟩ : ∃ mem, myUvmMap 2 (myPgdirInit (fun _ => 0) (kernelPage 0)).1
      [kernelPage 1, kernelPage 2, kernelPage 3] (kernelPage 0) 0x1800 0x100 0x80000 =
        some (.ok (mem, 0)) := ⟨_, rfl⟩
  refine ⟨mem, hret, ?_⟩
  apply (rangeMapped_iff (Refines.init _ _).tree (fun f hf => (supply_of_empty.unused f hf).fresh)
    supply_of_empty.nodup (by decide) (by decide) (by decide) hret).mpr
  decide

end KernelAarch64.Core
