import KernelAarch64.Core.AddressSpaces.Isolation
import KernelAarch64.Lib.Bytes

/-!
# The program of a new process (`core/proc.c`)

`spawn_init_process`, `add_loop_test`, `add_sd_test` and `sd_init_idle` copy the code of a program
to new pages, one after the other, and map them from address 0 on. They hold the lock of the process
only, so that other CPUs run programs and other parts of the kernel between any two steps.

The main result is `loads_code`. The loops are put as relations, with steps of the others between
any two of their own (`Copies`, `Loads`), and there is one lemma for each: `CopyByte.copied` for a
byte, `Copies.copied` for a page, and `Loads.loaded` for the program. What the others do is in
`Others.kept`, which rests on the invariant of `Core.AddressSpaces`.
-/

namespace KernelAarch64.Core

open KernelAarch64.Lib

/-- A word with its byte `k` set. -/
def setByte (w k : Nat) (b : UInt8) : Nat := leNat 8 (Function.update (leByte w) k b)

/-- The bytes of a word after one of them was set. -/
theorem leByte_setByte (w : Nat) {k j : Nat} (b : UInt8) (hj : j < 8) :
    leByte (setByte w k b) j = if j = k then b else leByte w j := by
  rw [setByte, leByte_leNat _ hj, Function.update_apply]

namespace AddressSpaces

variable {ι : Type} {t : KernelPt} {s₀ s s' : AddressSpaces ι} {o : Page → Owner ι} {page d : Page}
  {i : ι} {va vplace size cpsize j : Nat} {code : Nat → UInt8}

/-- The byte that a program loads. -/
def loadByte (t : KernelPt) (s : AddressSpaces ι) (i : ι) (va : Nat) : Option UInt8 :=
  (s.load t i (va / 8 * 8)).map fun w => leByte w (va % 8)

/-- The step belongs to a program, or to the kernel at work on it. -/
def SpaceAct.By (i : ι) : SpaceAct ι → Prop
  | .init j | .kalloc j | .map j _ | .copy j _ _ _ | .store j _ _ => j = i
  | .kernelAlloc | .kernelStore _ _ => False

variable [DecidableEq ι]

/-- Steps of the others. -/
abbrev Others (t : KernelPt) (i : ι) : AddressSpaces ι → AddressSpaces ι → Prop :=
  Steps (Step t) fun s act => s.Allowed t act ∧ ¬SpaceAct.By i act

/-- `((u8 *)PagePtr)[j] = code[vplace + j]`, one turn of `memcpy`. The memory here has words, so the
byte is set in the word it belongs to. -/
def CopyByte (t : KernelPt) (i : ι) (code : Nat → UInt8) (page : Page) (vplace j : Nat)
    (s s' : AddressSpaces ι) : Prop :=
  s.Step t (.copy i page (wordIndex j)
    (setByte (s.mem (page.entry (wordIndex j))) (j % 8) (code (vplace + j)))) s'

/-- `memcpy(PagePtr, code + vplace, size)` from byte `j` on. Before each byte, and after the last
one, the other CPUs may have taken any steps. -/
inductive Copies (t : KernelPt) (i : ι) (code : Nat → UInt8) (page : Page) (vplace size : Nat) :
    Nat → AddressSpaces ι → AddressSpaces ι → Prop
  | done {j : Nat} {s s' : AddressSpaces ι} : size ≤ j → Others t i s s' →
      Copies t i code page vplace size j s s'
  | byte {j : Nat} {s s₁ s₂ s' : AddressSpaces ι} : j < size → Others t i s s₁ →
      CopyByte t i code page vplace j s₁ s₂ → Copies t i code page vplace size (j + 1) s₂ s' →
      Copies t i code page vplace size j s s'

/-- The loop over the pages of the code from `vplace` on: a page from `kalloc`, the call of
`uvm_map` and the copy, with the steps of other CPUs between them. -/
inductive Loads (t : KernelPt) (i : ι) (code : Nat → UInt8) (cpsize : Nat) :
    Nat → AddressSpaces ι → AddressSpaces ι → Prop
  | done {vplace : Nat} {s s' : AddressSpaces ι} : cpsize ≤ vplace → Others t i s s' →
      Loads t i code cpsize vplace s s'
  | page {vplace : Nat} {page : Page} {s s₁ s₂ s₃ s₄ s₅ s' : AddressSpaces ι} :
      vplace < cpsize → Others t i s s₁ →
      s₁.Step t (.kalloc i) s₂ → s₂.held i = page :: s₁.held i → Others t i s₂ s₃ →
      s₃.Step t (.map i ⟨vplace, min pageSize (cpsize - vplace), page⟩) s₄ →
      Copies t i code page vplace (min pageSize (cpsize - vplace)) 0 s₄ s₅ →
      Loads t i code cpsize (vplace + pageSize) s₅ s' →
      Loads t i code cpsize vplace s s'

/-! ## Steps of the others

They may allocate, map, copy and store as they like; the pages of this program are not theirs. -/

omit [DecidableEq ι] in
/-- A load finds the byte in the page that is mapped. The walk of the MMU ends at the frame which
the calls of this program say, and the offset in the page stays. -/
theorem Inv.loadByte_eq (h : Inv t s o) (hd : s.pgdir i = some d) (hva : va < 2 ^ 48) :
    s.loadByte t i va = (pageAt (s.calls i) (pageOf va)).map
      fun f => leByte (s.mem (f.entry (wordIndex va))) (va % 8) := by
  have hpage : pageOf (va / 8 * 8) = pageOf va := by
    unfold pageOf
    omega
  have hword : wordIndex (va / 8 * 8) = wordIndex va := by
    apply Fin.ext
    show va / 8 * 8 % pageSize / 8 = va % pageSize / 8
    unfold pageSize
    omega
  rw [loadByte, h.load_eq hd (by omega) (by omega), hpage, hword, Option.map_map]
  rfl

/-- A program is where it was, and loads what it loaded. This is what the steps of others leave of
it; it is reflexive and transitive, so any number of steps may pass. -/
structure Kept (t : KernelPt) (i : ι) (s s' : AddressSpaces ι) : Prop where
  inv : ∃ o, Inv t s' o
  pgdir : s'.pgdir i = s.pgdir i
  held : s'.held i = s.held i
  calls : s'.calls i = s.calls i
  loadByte : ∀ va < 2 ^ 48, s'.loadByte t i va = s.loadByte t i va

/-- A step leaves the bytes that it does not write in the pages that stay mapped. -/
theorem Inv.loadByte_step {act : SpaceAct ι} (h : Inv t s o) (hd : s.pgdir i = some d)
    (hok : s.Allowed t act) (hstep : s.Step t act s') (hpgdir : s'.pgdir i = s.pgdir i)
    (hva : va < 2 ^ 48)
    (hpage : pageAt (s'.calls i) (pageOf va) = pageAt (s.calls i) (pageOf va))
    (hwrites : ∀ f, pageAt (s.calls i) (pageOf va) = some f → ¬s.Writes t f (wordIndex va) act) :
    s'.loadByte t i va = s.loadByte t i va := by
  obtain ⟨o', h', hsame⟩ := h.step hok hstep
  rw [h.loadByte_eq hd hva, h'.loadByte_eq (hpgdir.trans hd) hva, hpage]
  cases hf : pageAt (s.calls i) (pageOf va) with
  | none => rw [Option.map_none, Option.map_none]
  | some f =>
    rw [Option.map_some, Option.map_some, (hsame f i (h.data_pageAt hf)).2 _ (hwrites f hf)]

/-- A step of the others. It maps no page for this program and writes to none of its pages, because
a page that another program gets at is not one of this program. -/
theorem Inv.other {act : SpaceAct ι} (h : Inv t s o) (hd : s.pgdir i = some d)
    (hok : s.Allowed t act) (hby : ¬SpaceAct.By i act) (hstep : s.Step t act s') :
    Kept t i s s' := by
  -- What belongs to program `i` is written by steps of program `i` only.
  have hsame : s'.pgdir i = s.pgdir i ∧ s'.held i = s.held i ∧ s'.calls i = s.calls i := by
    cases act with
    | init j =>
      obtain ⟨-, f, p, -, rfl⟩ := hstep
      exact ⟨Function.update_of_ne (Ne.symm hby) _ _, rfl, rfl⟩
    | kalloc j =>
      obtain ⟨f, p, -, rfl⟩ := hstep
      exact ⟨rfl, Function.update_of_ne (Ne.symm hby) _ _, rfl⟩
    | map j c =>
      obtain ⟨e, used, p, fuel, mem, ret, -, -, -, rfl⟩ := hstep
      exact ⟨rfl, Function.update_of_ne (Ne.symm hby) _ _, Function.update_of_ne (Ne.symm hby) _ _⟩
    | store j va w =>
      simp only [Step] at hstep
      split at hstep
      · subst hstep
        exact ⟨rfl, rfl, rfl⟩
      · subst hstep
        exact ⟨rfl, rfl, rfl⟩
    | kernelAlloc =>
      obtain ⟨f, p, -, rfl⟩ := hstep
      exact ⟨rfl, rfl, rfl⟩
    | copy j f k w =>
      cases hstep
      exact ⟨rfl, rfl, rfl⟩
    | kernelStore a w =>
      cases hstep
      exact ⟨rfl, rfl, rfl⟩
  obtain ⟨hpgdir, hheld, hcalls⟩ := hsame
  obtain ⟨o', h', -⟩ := h.step hok hstep
  refine ⟨⟨o', h'⟩, hpgdir, hheld, hcalls, ?_⟩
  intro va hva
  refine h.loadByte_step hd hok hstep hpgdir hva (by rw [hcalls]) ?_
  intro f hf hwrites
  -- A page of the data of `i` is written by `i` only, since it has one owner.
  have howner := h.data_pageAt hf
  apply hby
  cases act with
  | copy j g k w =>
    obtain ⟨rfl, -⟩ := hwrites
    exact (Owner.data.inj (howner.symm.trans (h.data j g hok))).symm
  | store j va' w =>
    obtain ⟨pa, hpa, hentry⟩ := hwrites
    obtain ⟨g, -, -, hg, rfl⟩ := h.reach_some hpa
    rw [p2k_word (h.data_kspace hg) hok] at hentry
    obtain ⟨rfl, -⟩ := Page.entry_inj hentry
    exact (Owner.data.inj (howner.symm.trans hg)).symm
  | init j => exact hwrites.elim
  | kalloc j => exact hwrites.elim
  | map j c => exact hwrites.elim
  | kernelAlloc => exact hwrites.elim
  | kernelStore a w => exact hwrites.elim

omit [DecidableEq ι] in
theorem Kept.trans {s₁ : AddressSpaces ι} (h : Kept t i s s₁) (h' : Kept t i s₁ s') :
    Kept t i s s' :=
  ⟨h'.inv, h'.pgdir.trans h.pgdir, h'.held.trans h.held, h'.calls.trans h.calls,
    fun va hva => (h'.loadByte va hva).trans (h.loadByte va hva)⟩

/-- Any number of steps of the others. -/
theorem Others.kept (h : Inv t s o) (hd : s.pgdir i = some d) (hrun : Others t i s s') :
    Kept t i s s' := by
  apply hrun.invariant (I := fun u => Kept t i s u) ⟨⟨o, h⟩, rfl, rfl, rfl, fun _ _ => rfl⟩
  rintro u v act hu ⟨hok, hby⟩ hstep
  obtain ⟨o', hinv⟩ := hu.inv
  exact hu.trans (hinv.other (hu.pgdir.trans hd) hok hby hstep)

/-! ## Copying a page

`Copied` says which bytes are there already. It composes, so that the copy of a page is the sum of
its bytes. -/

/-- The page of the code at `vplace` is mapped, and more bytes of the code are there. -/
structure Copied (t : KernelPt) (i : ι) (code : Nat → UInt8) (vplace a b : Nat)
    (s s' : AddressSpaces ι) : Prop where
  inv : ∃ o, Inv t s' o
  pgdir : s'.pgdir i = s.pgdir i
  held : s'.held i = s.held i
  calls : s'.calls i = s.calls i
  loadByte : ∀ va < 2 ^ 48, s'.loadByte t i va =
    if vplace + a ≤ va ∧ va < vplace + b then some (code va) else s.loadByte t i va

/-- One byte of the code arrives where the program will load it. The kernel writes to the page at
its address in the upper half, the program will load it by the address that the page is mapped at.
-/
theorem CopyByte.copied (h : Inv t s o) (hd : s.pgdir i = some d)
    (hpage : pageAt (s.calls i) (pageOf vplace) = some page) (haligned : vplace % pageSize = 0)
    (hvplace : vplace < 2 ^ 48) (hj : j < pageSize) (hstep : CopyByte t i code page vplace j s s') :
    Copied t i code vplace j (j + 1) s s' := by
  obtain ⟨c, hc, -, hcpage⟩ := mem_of_pageAt hpage
  have hok : s.Allowed t (.copy i page (wordIndex j)
      (setByte (s.mem (page.entry (wordIndex j))) (j % 8) (code (vplace + j)))) :=
    List.mem_append_left _ (hcpage ▸ List.mem_map_of_mem hc)
  obtain ⟨o', h', -⟩ := h.step hok hstep
  cases hstep
  refine ⟨⟨o', h'⟩, rfl, rfl, rfl, ?_⟩
  intro va hva
  rw [h.loadByte_eq hd hva, h'.loadByte_eq hd hva]
  cases hf : pageAt (s.calls i) (pageOf va) with
  -- The page of the code is mapped, so `va` is not on it.
  | none =>
    have hne : ¬(vplace + j ≤ va ∧ va < vplace + (j + 1)) := by
      intro hin
      have hsame : pageOf va = pageOf vplace := by
        unfold pageOf
        unfold pageSize at haligned hj
        omega
      rw [hsame, hpage] at hf
      cases hf
    rw [if_neg hne, Option.map_none, Option.map_none]
  | some f =>
    -- Two bytes are in one word if their offsets are in the same group of eight.
    have hword : ∀ a, wordIndex a = wordIndex j ↔ a % pageSize / 8 = j / 8 := by
      intro a
      rw [wordIndex, wordIndex, Fin.mk.injEq, Nat.mod_eq_of_lt hj]
    rw [Option.map_some, Option.map_some]
    show some (leByte (Function.update s.mem _ _ (f.entry (wordIndex va))) (va % 8)) = _
    by_cases hentry : f = page ∧ wordIndex va = wordIndex j
    · -- The word of the byte that is written.
      obtain ⟨rfl, hindex⟩ := hentry
      have hva' : pageOf va = pageOf vplace := pageAt_inj (h.nodup i).of_append_left hf hpage
      have hsplit : vplace + j ≤ va ∧ va < vplace + (j + 1) ↔ va % 8 = j % 8 := by
        have hindex' := (hword va).mp hindex
        unfold pageOf at hva'
        unfold pageSize at haligned hj hindex'
        omega
      rw [hindex, Function.update_self, leByte_setByte _ _ (Nat.mod_lt _ (by decide))]
      by_cases hbyte : va % 8 = j % 8
      · have hin := hsplit.mpr hbyte
        have heq : vplace + j = va := by omega
        rw [if_pos hbyte, if_pos hin, heq]
      · rw [if_neg hbyte, if_neg fun hin => hbyte (hsplit.mp hin)]
    · have hne : ¬(vplace + j ≤ va ∧ va < vplace + (j + 1)) := by
        intro hin
        have hsame : pageOf va = pageOf vplace := by
          unfold pageOf
          unfold pageSize at haligned hj
          omega
        rw [hsame, hpage] at hf
        refine hentry ⟨(Option.some.inj hf).symm, (hword va).mpr ?_⟩
        unfold pageSize at *
        omega
      rw [if_neg hne, Function.update_of_ne fun heq => hentry (Page.entry_inj heq)]

omit [DecidableEq ι] in
/-- The bytes up to `b`, and then those up to `c`. The second part leaves the bytes of the first
alone, since it writes behind them. -/
theorem Copied.trans {s₁ : AddressSpaces ι} {a b c : Nat} (hab : a ≤ b) (hbc : b ≤ c)
    (h : Copied t i code vplace a b s s₁) (h' : Copied t i code vplace b c s₁ s') :
    Copied t i code vplace a c s s' := by
  refine ⟨h'.inv, h'.pgdir.trans h.pgdir, h'.held.trans h.held, h'.calls.trans h.calls, ?_⟩
  intro va hva
  rw [h'.loadByte va hva, h.loadByte va hva]
  by_cases hfirst : vplace + a ≤ va ∧ va < vplace + b
  · rw [if_neg (by omega), if_pos hfirst, if_pos (by omega)]
  · rw [if_neg hfirst]
    by_cases hsecond : vplace + b ≤ va ∧ va < vplace + c
    · rw [if_pos hsecond, if_pos (by omega)]
    · rw [if_neg hsecond, if_neg (by omega)]

omit [DecidableEq ι] in
/-- The others copy nothing of this. -/
theorem Kept.copied (h : Kept t i s s') (j : Nat) : Copied t i code vplace j j s s' := by
  refine ⟨h.inv, h.pgdir, h.held, h.calls, ?_⟩
  intro va hva
  rw [if_neg (by omega)]
  exact h.loadByte va hva

/-- `memcpy` copies the code of the page, whatever the others do between two bytes. -/
theorem Copies.copied (h : Inv t s o) (hd : s.pgdir i = some d)
    (hpage : pageAt (s.calls i) (pageOf vplace) = some page) (haligned : vplace % pageSize = 0)
    (hvplace : vplace < 2 ^ 48) (hsize : size ≤ pageSize) (hj : j ≤ size)
    (hcopies : Copies t i code page vplace size j s s') :
    Copied t i code vplace j size s s' := by
  induction hcopies generalizing o with
  | done hend hothers =>
    obtain rfl := Nat.le_antisymm hj hend
    exact (Others.kept h hd hothers).copied _
  | byte hlt hothers hbyte _ ih =>
    have hkept := Others.kept h hd hothers
    obtain ⟨o₁, h₁⟩ := hkept.inv
    have hcopied := CopyByte.copied h₁ (hkept.pgdir.trans hd) (by rw [hkept.calls]; exact hpage)
      haligned hvplace (lt_of_lt_of_le hlt hsize) hbyte
    obtain ⟨o₂, h₂⟩ := hcopied.inv
    have hrest := ih h₂ ((hcopied.pgdir.trans hkept.pgdir).trans hd)
      (by rw [hcopied.calls, hkept.calls]; exact hpage) hlt
    exact (hkept.copied _).trans (Nat.le_refl _) hj (hcopied.trans (Nat.le_succ _) hlt hrest)

/-! ## The loop over the pages

The last page may be filled in part. What lies behind the end of the code there is whatever the page
held before. -/

/-- The end of the last page of the code. -/
def codeEnd (cpsize : Nat) : Nat := (cpsize + pageSize - 1) / pageSize * pageSize

/-- The loop maps each page on its own: the range of a call begins at a page and is no longer than
one, so that `uvm_map` takes one turn. -/
theorem singlePage_load (hcpsize : cpsize ≤ userTop) (haligned : vplace % pageSize = 0)
    (hlt : vplace < cpsize) (page : Page) :
    PageCall.SinglePage ⟨vplace, min pageSize (cpsize - vplace), page⟩ := by
  unfold userTop at hcpsize
  unfold pageSize at *
  have hmin : 1 ≤ min 4096 (cpsize - vplace) ∧ min 4096 (cpsize - vplace) ≤ 4096 := by omega
  generalize min 4096 (cpsize - vplace) = size at hmin
  refine ⟨by show vplace < 2 ^ 64; omega, hmin.1, ?_⟩
  show uvmMapEnd vplace size = roundDownPage vplace
  have hlast : (vplace + size + 2 ^ 64 - 1) % 2 ^ 64 = vplace + size - 1 := by omega
  rw [uvmMapEnd, hlast]
  unfold roundDownPage pageSize
  omega

/-- `uvm_map` maps the page at `vplace` and leaves the others: the program has its directory still,
and every other address translates as it did. -/
theorem map_page (h : Inv t s o) (hd : s.pgdir i = some d) (hcpsize : cpsize ≤ userTop)
    (haligned : vplace % pageSize = 0) (hlt : vplace < cpsize) (hheld : page ∈ s.held i)
    (hstep : s.Step t (.map i ⟨vplace, min pageSize (cpsize - vplace), page⟩) s') :
    (∃ o, Inv t s' o) ∧ s'.pgdir i = some d ∧
      pageAt (s'.calls i) (pageOf vplace) = some page ∧
      ∀ va < 2 ^ 48, pageOf va ≠ pageOf vplace → s'.loadByte t i va = s.loadByte t i va := by
  have hok : s.Allowed t (.map i ⟨vplace, min pageSize (cpsize - vplace), page⟩) :=
    ⟨singlePage_load hcpsize haligned hlt page, lt_of_lt_of_le hlt hcpsize, hheld⟩
  obtain ⟨o', h', -⟩ := h.step hok hstep
  obtain ⟨hpgdir, hcalls⟩ : s'.pgdir i = s.pgdir i ∧
      s'.calls i = ⟨vplace, min pageSize (cpsize - vplace), page⟩ :: s.calls i := by
    obtain ⟨e, used, p, fuel, mem, ret, -, -, -, rfl⟩ := hstep
    exact ⟨rfl, Function.update_self ..⟩
  refine ⟨⟨o', h'⟩, hpgdir.trans hd, ?_, ?_⟩
  · rw [hcalls, pageAt, List.find?_cons, decide_eq_true rfl]
    rfl
  · intro va hva hpage
    refine h.loadByte_step hd hok hstep hpgdir hva ?_ fun _ _ => id
    rw [hcalls, pageAt, List.find?_cons, decide_eq_false (Ne.symm hpage)]
    rfl

/-- `kalloc` changes nothing for the program yet: the new page is held, and is mapped by the next
call only. -/
theorem kalloc_page (h : Inv t s o) (hd : s.pgdir i = some d) (hstep : s.Step t (.kalloc i) s') :
    (∃ o, Inv t s' o) ∧ s'.pgdir i = some d ∧
      ∀ va < 2 ^ 48, s'.loadByte t i va = s.loadByte t i va := by
  have hok : s.Allowed t (.kalloc i) := trivial
  obtain ⟨o', h', -⟩ := h.step hok hstep
  obtain ⟨hpgdir, hcalls⟩ : s'.pgdir i = s.pgdir i ∧ s'.calls i = s.calls i := by
    obtain ⟨f, p, -, rfl⟩ := hstep
    exact ⟨rfl, rfl⟩
  refine ⟨⟨o', h'⟩, hpgdir.trans hd, ?_⟩
  intro va hva
  exact h.loadByte_step hd hok hstep hpgdir hva (by rw [hcalls]) fun _ _ => id

/-- By induction over the pages that are left: those below `vplace` are mapped and filled. What
others do in between keeps this, and a new page is mapped at `vplace`, where nothing was. -/
theorem Loads.loaded (h : Inv t s o) (hd : s.pgdir i = some d) (hcpsize : cpsize ≤ userTop)
    (haligned : vplace % pageSize = 0) (hend : vplace ≤ codeEnd cpsize)
    (hcode : ∀ va < vplace, va < cpsize → s.loadByte t i va = some (code va))
    (hnone : ∀ va < 2 ^ 48, vplace ≤ va → s.loadByte t i va = none)
    (hloads : Loads t i code cpsize vplace s s') :
    (∀ va < cpsize, s'.loadByte t i va = some (code va)) ∧
      ∀ va < 2 ^ 48, codeEnd cpsize ≤ va → s'.loadByte t i va = none := by
  induction hloads generalizing o with
  | done hle hothers =>
    have hkept := Others.kept h hd hothers
    unfold userTop at hcpsize
    refine ⟨?_, ?_⟩
    · intro va hva
      rw [hkept.loadByte va (by omega)]
      exact hcode va (by omega) hva
    · intro va hva hafter
      rw [hkept.loadByte va hva]
      exact hnone va hva (by omega)
  | @page vplace page _ _ _ _ _ _ _ hlt hothers hkalloc hheld hothers' hmap hcopies _ ih =>
    -- From the top of the loop to the call of `uvm_map`.
    have hkept := Others.kept h hd hothers
    obtain ⟨o₁, h₁⟩ := hkept.inv
    obtain ⟨⟨o₂, h₂⟩, hd₂, hload₂⟩ := kalloc_page h₁ (hkept.pgdir.trans hd) hkalloc
    have hkept' := Others.kept h₂ hd₂ hothers'
    obtain ⟨o₃, h₃⟩ := hkept'.inv
    have hpage : _ ∈ _ := hkept'.held ▸ hheld ▸ List.mem_cons_self
    -- The page is mapped, and the code copied.
    obtain ⟨⟨o₄, h₄⟩, hd₄, hpage₄, hload₄⟩ :=
      map_page h₃ (hkept'.pgdir.trans hd₂) hcpsize haligned hlt hpage hmap
    unfold userTop at hcpsize
    have hcopied := Copies.copied h₄ hd₄ hpage₄ haligned (by omega) (Nat.min_le_left _ _)
      (Nat.zero_le _) hcopies
    obtain ⟨o₅, h₅⟩ := hcopied.inv
    apply ih h₅ (hcopied.pgdir.trans hd₄)
    · rw [Nat.add_mod_right]
      exact haligned
    · unfold codeEnd
      unfold pageSize at *
      omega
    · intro va hva hvacp
      rw [hcopied.loadByte va (by omega)]
      by_cases hin : vplace ≤ va
      · rw [if_pos ⟨hin, by unfold pageSize at *; omega⟩]
      · rw [if_neg fun hnot => hin hnot.1, hload₄ va (by omega), hkept'.loadByte va (by omega),
          hload₂ va (by omega), hkept.loadByte va (by omega)]
        · exact hcode va (by omega) hvacp
        · unfold pageOf
          unfold pageSize at haligned
          omega
    · intro va hva hafter
      rw [hcopied.loadByte va hva, if_neg (by unfold pageSize at *; omega), hload₄ va hva,
        hkept'.loadByte va hva, hload₂ va hva, hkept.loadByte va hva]
      · exact hnone va hva (by omega)
      · unfold pageOf
        unfold pageSize at *
        omega

/-- A program whose directory has just been made finds its code from address 0 on, byte by byte and
over all its pages, and nothing behind the last of them, whatever the other CPUs have done while it
was loaded. -/
theorem loads_code (hboot : Boot t s₀) (hclean : s₀.CleanPool) (hrun : Run t s₀ s) (hd : s.pgdir i = some d)
    (hcalls : s.calls i = []) (hcpsize : cpsize ≤ userTop)
    (hloads : Loads t i code cpsize 0 s s') :
    (∀ va < cpsize, s'.loadByte t i va = some (code va)) ∧
      ∀ va < 2 ^ 48, codeEnd cpsize ≤ va → s'.loadByte t i va = none := by
  obtain ⟨o, h⟩ := (hboot.inv hclean).run hrun
  apply Loads.loaded h hd hcpsize (Nat.zero_mod _) (Nat.zero_le _) _ _ hloads
  · exact fun va hva => absurd hva (Nat.not_lt_zero va)
  · intro va hva _
    rw [h.loadByte_eq hd hva, hcalls]
    rfl

/-- Such a copy is possible in every state. -/
theorem exists_copies (t : KernelPt) (i : ι) (code : Nat → UInt8) (page : Page)
    (vplace size j : Nat)
    (s : AddressSpaces ι) : ∃ s', Copies t i code page vplace size j s s' := by
  by_cases hlt : j < size
  · obtain ⟨s', hcopies⟩ := exists_copies t i code page vplace size (j + 1) _
    exact ⟨s', .byte hlt (.refl s) rfl hcopies⟩
  · exact ⟨s, .done (Nat.le_of_not_lt hlt) (.refl s)⟩
termination_by size - j

/-- A program of twelve bytes is loaded to its one page. The address of the next page is not mapped.
-/
theorem loads_code_twelve : ∃ s s', Run firstKernelPt bootSpaces s ∧
    Loads firstKernelPt false (fun n => UInt8.ofNat (n + 1)) 12 0 s s' ∧
    s'.loadByte firstKernelPt false 11 = some 12 ∧
    s'.loadByte firstKernelPt false 0x1000 = none := by
  obtain ⟨p, p₁, h₀, p₂, h₁, p₃, h₂, p₄, h₃, p₅, h₄, rfl⟩ : ∃ p,
      bootSpaces.pool.Gives [topPage 0, topPage 1, topPage 2, topPage 3, topPage 4] p :=
    ⟨_, _, rfl, _, rfl, _, rfl, _, rfl, _, rfl, rfl⟩
  obtain ⟨mem, hmap⟩ : ∃ mem, myUvmMapPages 2 (myPgdirInit bootSpaces.mem (topPage 0)).1
      [topPage 2, topPage 3, topPage 4] (topPage 0) 0 12 (k2p (topPage 1).addr) =
        some (.ok (mem, [], 0)) :=
    ⟨_, rfl⟩
  obtain ⟨s, s₁, s₂, hinit, hd, hcalls, hkalloc, hheld, hmapped⟩ : ∃ s s₁ s₂,
      bootSpaces.Step firstKernelPt (.init false) s ∧ s.pgdir false = some (topPage 0) ∧
      s.calls false = [] ∧ s.Step firstKernelPt (.kalloc false) s₁ ∧
      s₁.held false = topPage 1 :: s.held false ∧
      s₁.Step firstKernelPt (.map false ⟨0, min pageSize (12 - 0), topPage 1⟩) s₂ :=
    ⟨_, _, _, ⟨rfl, topPage 0, p₁, h₀, rfl⟩, rfl, rfl, ⟨topPage 1, p₂, h₁, rfl⟩, rfl, topPage 0,
      [topPage 2, topPage 3, topPage 4], _, 2, mem, 0, rfl, ⟨p₃, h₂, p₄, h₃, _, h₄, rfl⟩, hmap,
      rfl⟩
  have hrun : Run firstKernelPt bootSpaces s :=
    (Steps.refl bootSpaces).tail (a := .init false) trivial hinit
  obtain ⟨s', hcopies⟩ := exists_copies firstKernelPt false (fun n => UInt8.ofNat (n + 1))
    (topPage 1) 0 (min pageSize (12 - 0)) 0 s₂
  have hloads : Loads firstKernelPt false (fun n => UInt8.ofNat (n + 1)) 12 0 s s' :=
    .page (by decide) (.refl s) hkalloc hheld (.refl s₁) hmapped hcopies
      (.done (by decide) (.refl s'))
  obtain ⟨hbytes, hnone⟩ := loads_code boot_bootSpaces clean_bootSpaces hrun hd hcalls (by decide) hloads
  exact ⟨s, s', hrun, hloads, hbytes 11 (by decide), hnone 0x1000 (by decide) (by decide)⟩

end AddressSpaces

end KernelAarch64.Core
