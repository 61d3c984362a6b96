import KernelAarch64.Core.Mmu
import KernelAarch64.Core.VirtualMemory.Tables

/-!
# What `my_pgdir_walk` and `my_uvm_map` write

They write links above the last tables, and no address outside the tables of the directory and the
pages that become tables.

Both follow from the two kinds of write there are, a link and an entry of a last table
(`built_link`, `built_leaf`). `myPgdirWalk_built` puts the links of a walk together, by induction on
the levels that are left, and `uvmMapLoopPages_built` the iterations of a call. `Core.AddressSpaces`
uses the frame: what is no table of a directory is not written when the directory is.
-/

namespace KernelAarch64.Core

open KernelAarch64.Lib

variable {mem mem₁ mem' : Mem} {pgdir t : Page} {va : Nat} {kalloc kalloc' used used' : List Page}

/-- The page is a table of the directory. -/
def IsTable (mem : Mem) (pgdir t : Page) : Prop := ∃ q, q.length ≤ 3 ∧ tableAt mem pgdir q = some t

/-- The steps between two memories have written links and entries of tables only, where the pages in
`used` have become tables. -/
structure Built (mem mem' : Mem) (pgdir : Page) (used : List Page) : Prop where
  links : TableLinks mem pgdir → (∀ f ∈ used, f.Linear) → TableLinks mem' pgdir
  frame : ∀ a, mem' a ≠ mem a → ∃ u i, a = u.entry i ∧ (u ∈ used ∨ IsTable mem pgdir u)

theorem Built.refl (mem : Mem) (pgdir : Page) : Built mem mem pgdir [] :=
  ⟨fun h _ => h, fun _ h => absurd rfl h⟩

/-- The pages that have become tables in the first step are tables for the second. -/
theorem Built.trans (h : Built mem mem₁ pgdir used) (hgrown : Grown mem mem₁ pgdir used)
    (h' : Built mem₁ mem' pgdir used') : Built mem mem' pgdir (used ++ used') := by
  constructor
  · intro hlinks hspace
    have hlinks₁ := h.links hlinks fun f hf => hspace f (List.mem_append_left used' hf)
    exact h'.links hlinks₁ fun f hf => hspace f (List.mem_append_right used hf)
  · intro a ha
    by_cases hfirst : mem₁ a = mem a
    · rw [← hfirst] at ha
      obtain ⟨u, i, hentry, hu | ⟨q, hq, hu⟩⟩ := h'.frame a ha
      · exact ⟨u, i, hentry, .inl (List.mem_append_right used hu)⟩
      · rcases hgrown.tables q u hq hu with hu | hu
        · exact ⟨u, i, hentry, .inr ⟨q, hq, hu⟩⟩
        · exact ⟨u, i, hentry, .inl (List.mem_append_left used' hu)⟩
    · obtain ⟨u, i, hentry, hu⟩ := h.frame a hfirst
      exact ⟨u, i, hentry, hu.imp_left (List.mem_append_left used')⟩

/-- A single entry of a table is written. -/
theorem frame_update {q : List (Fin 512)} (hq : q.length ≤ 3) (ht : tableAt mem pgdir q = some t)
    (i : Fin 512) (e : Nat) (a : Nat) (ha : Function.update mem (t.entry i) e a ≠ mem a) :
    ∃ u k, a = u.entry k ∧ (u ∈ used ∨ IsTable mem pgdir u) := by
  refine ⟨t, i, ?_, .inr ⟨q, hq, ht⟩⟩
  by_contra hne
  exact ha (Function.update_of_ne hne _ _)

/-- A page is made a table. -/
theorem built_link {p : List (Fin 512)} {i : Fin 512} {f : Page} (htree : IsTree mem pgdir)
    (hlt : p.length < 3) (ht : tableAt mem pgdir p = some t)
    (hnone : nextTable (tables mem t i) = none) (hfresh : IsFresh mem pgdir f) :
    Built mem (Function.update mem (t.entry i) (k2p f.addr ||| pteTable)) pgdir [f] := by
  refine ⟨?_, frame_update (Nat.le_of_lt hlt) ht i _⟩
  intro hlinks hspace
  rw [TableLinks, tables_update]
  apply hlinks.link htree hlt ht hnone hfresh (nextTable_link f)
  exact ⟨f, hspace f (List.mem_singleton_self f), rfl⟩

/-- The entry of an address is written. -/
theorem built_leaf (htree : IsTree mem pgdir) (ht : tableAt mem pgdir (path va) = some t)
    (e : Nat) : Built mem (Function.update mem (t.entry (ptx 0 va)) e) pgdir [] := by
  have hlength := pathFrom_length va 3
  refine ⟨?_, frame_update (Nat.le_of_eq hlength) ht (ptx 0 va) e⟩
  intro hlinks _
  rw [TableLinks, tables_update]
  exact hlinks.set_leaf htree hlength ht

/-- The walk with `alloc`, from a table of the directory on, writes links and nothing else. The
induction is on the levels that are left; each level takes one page at most. -/
theorem myPgdirWalk_built {index : Nat} {p : List (Fin 512)} {pte : Option Nat}
    (hp : p.length + index = 3) (htree : IsTree mem pgdir) (ht : tableAt mem pgdir p = some t)
    (hfresh : ∀ f ∈ kalloc, IsFresh mem pgdir f) (hnodup : kalloc.Nodup)
    (hwalk : myPgdirWalk va true index mem kalloc t = .ok (mem', kalloc', pte)) :
    ∃ used, kalloc = used ++ kalloc' ∧ Grown mem mem' pgdir used ∧ Built mem mem' pgdir used := by
  induction index generalizing mem kalloc t p with
  | zero =>
    cases hwalk
    exact ⟨[], rfl, Grown.refl _ _, Built.refl _ _⟩
  | succ index ih =>
    have hlength : (p ++ [ptx (index + 1) va]).length + index = 3 := by
      rw [List.length_append, List.length_singleton]
      omega
    rw [myPgdirWalk_succ] at hwalk
    by_cases hvalid : mem (t.entry (ptx (index + 1) va)) &&& pteValid ≠ 0
    · rw [if_pos hvalid] at hwalk
      have hnext : tableAt mem pgdir (p ++ [ptx (index + 1) va]) =
          some (Page.ofPte (mem (t.entry (ptx (index + 1) va)))) := by
        rw [tableAt, Radix.descend_concat_of ht]
        exact nextTable_valid hvalid
      exact ih hlength htree hnext hfresh hnodup hwalk
    · have hnone : nextTable (tables mem t (ptx (index + 1) va)) = none :=
        nextTable_invalid hvalid
      rw [if_neg hvalid, if_neg (by decide)] at hwalk
      cases kalloc with
      | nil => cases hwalk
      | cons f kalloc =>
        obtain ⟨hf, hnodup'⟩ := List.nodup_cons.mp hnodup
        have hff := hfresh f List.mem_cons_self
        have hlt : p.length < 3 := by omega
        obtain ⟨htree₁, ht₁, hgrown₁, -⟩ := link_table htree hlt ht hnone hff rfl
        have hrest : ∀ g ∈ kalloc, IsFresh (Function.update mem (t.entry (ptx (index + 1) va))
            (k2p f.addr ||| pteTable)) pgdir g := by
          intro g hg
          refine hgrown₁.fresh g ?_ (hfresh g (List.mem_cons_of_mem f hg))
          rw [List.mem_singleton]
          rintro rfl
          exact hf hg
        obtain ⟨used, hused, hgrown, hbuilt⟩ := ih hlength htree₁ ht₁ hrest hnodup' hwalk
        exact ⟨f :: used, by rw [hused, List.cons_append], hgrown₁.trans hgrown,
          (built_link htree hlt ht hnone hff).trans hgrown₁ hbuilt⟩

/-- The loop of `my_uvm_map`, by induction on its fuel: an iteration is a walk, and the entry that
is written at the end of it. -/
theorem uvmMapLoopPages_built {fuel p pa end_ : Nat} {ret : Int} (htree : IsTree mem pgdir)
    (hfresh : ∀ f ∈ kalloc, IsFresh mem pgdir f) (hnodup : kalloc.Nodup)
    (hret : uvmMapLoopPages pgdir va end_ fuel p pa mem kalloc = some (.ok (mem', kalloc', ret))) :
    ∃ used, kalloc = used ++ kalloc' ∧ Grown mem mem' pgdir used ∧ Built mem mem' pgdir used := by
  induction fuel generalizing p pa mem kalloc with
  | zero => cases hret
  | succ fuel ih =>
    rw [uvmMapLoopPages] at hret
    split at hret
    · rcases myPgdirWalk_alloc va 3 (p := []) rfl htree rfl hfresh hnodup with
        ⟨-, stop, hstop⟩ | ⟨mem₁, used, kalloc₁, t, hused, hwalk, hwalked, -⟩
      · simp only [hstop] at hret
        cases hret
      · simp only [hwalk] at hret
        obtain ⟨used', hused', hgrown, hbuilt⟩ :=
          myPgdirWalk_built (p := []) rfl htree rfl hfresh hnodup hwalk
        have hsame : used' = used := List.append_cancel_right (hused'.symm.trans hused)
        subst hsame
        have hleaf := mapped_update hwalked.tree hwalked.found pa
        have hgrown₁ := hgrown.trans
          (grown_update hwalked.tree hwalked.found (pteAddress pa ||| pteUserData))
        have hbuilt₁ := hbuilt.trans hgrown
          (built_leaf hwalked.tree hwalked.found (pteAddress pa ||| pteUserData))
        rw [List.append_nil] at hgrown₁ hbuilt₁
        have hrest : ∀ f ∈ kalloc₁, IsFresh (Function.update mem₁ (t.entry (ptx 0 va))
            (pteAddress pa ||| pteUserData)) pgdir f := by
          intro f hf
          refine hgrown₁.fresh f ?_ (hfresh f (hused ▸ List.mem_append_right _ hf))
          intro hused₁
          rw [hused] at hnodup
          exact (List.disjoint_of_nodup_append hnodup) hused₁ hf
        obtain ⟨used₂, hused₂, hgrown₂, hbuilt₂⟩ :=
          ih hleaf.tree hrest (hused ▸ hnodup).of_append_right hret
        exact ⟨used' ++ used₂, by rw [hused, hused₂, List.append_assoc], hgrown₁.trans hgrown₂,
          hbuilt₁.trans hgrown₁ hbuilt₂⟩
    · cases hret
      exact ⟨[], rfl, Grown.refl _ _, Built.refl _ _⟩

end KernelAarch64.Core
