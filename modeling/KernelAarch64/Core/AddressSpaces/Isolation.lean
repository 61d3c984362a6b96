import KernelAarch64.Core.AddressSpaces

/-!
# Isolation of programs

What a program gets at is decided by the calls of `uvm_map` that were made for it, whatever the
other programs store.

The results are `isolated` and `store_load`, for runs from a boot with clean pages. Both read off
the invariant of `Core.AddressSpaces`, which all steps keep. `reached_through_stale_entry` is a boot
whose pool has a page that is not clean; there a program gets at a frame that nobody has mapped for
it.
-/

namespace KernelAarch64.Core

open KernelAarch64.Lib

namespace AddressSpaces

variable {ι : Type} [DecidableEq ι] {t : KernelPt} {s₀ s s' : AddressSpaces ι} {o : Page → Owner ι}
  {f u d : Page} {i : ι} {va w : Nat}

/-- Different pages have different frames. -/
theorem k2p_inj (h : k2p f.addr = k2p u.addr) : f = u := by
  have hf := f.lt
  have hu := u.lt
  apply Page.ext
  unfold k2p kspaceMask at h
  omega

/-- The frame of an address that a program gets at. -/
theorem pteAddress_frame (hf : f.Linear) (va : Nat) :
    pteAddress (k2p f.addr + va % pageSize) = k2p f.addr := by
  have hlt := f.lt
  have haligned := f.aligned
  have hspace := hf.1
  unfold pteAddress k2p
  unfold kspaceMask pageSize at *
  omega

/-- **Isolation.** Whatever the programs store: each of them gets at the pages that the kernel has
mapped for it, and at nothing else. Two addresses lead to the same frame only if they are on the
same page of the same program. No program gets at a table of a program, at a table or another page
of the kernel, or at a page that is not handed out. -/
theorem isolated (hboot : Boot t s₀) (hclean : s₀.CleanPool) (hrun : Run t s₀ s) :
    (∀ i d va, s.pgdir i = some d → s.reach t i va = if va < 2 ^ 48 then
      (pageAt (s.calls i) (pageOf va)).map fun f => k2p f.addr + va % pageSize else none) ∧
    (∀ i j va va' pa pa', s.reach t i va = some pa → s.reach t j va' = some pa' →
      pteAddress pa = pteAddress pa' → i = j ∧ pageOf va = pageOf va') ∧
    ∀ i va pa f, s.reach t i va = some pa →
      ((∃ j d, s.pgdir j = some d ∧ IsTable s.mem d f) ∨ f ∈ s.kernel ∨ f ∈ t.pages ∨
        ¬s.pool.Busy f.addr) → pteAddress pa ≠ k2p f.addr := by
  obtain ⟨o, h⟩ := (hboot.inv hclean).run hrun
  have hframe : ∀ {i va pa}, s.reach t i va = some pa → ∃ f, va < 2 ^ 48 ∧ o f = .data i ∧
      pageAt (s.calls i) (pageOf va) = some f ∧ pteAddress pa = k2p f.addr := by
    intro i va pa hpa
    obtain ⟨f, hva, hpage, hf, rfl⟩ := h.reach_some hpa
    exact ⟨f, hva, hf, hpage, pteAddress_frame (h.data_kspace hf) va⟩
  refine ⟨fun i d va hd => h.reach_eq hd va, ?_, ?_⟩
  · intro i j va va' pa pa' hpa hpa' hsame
    obtain ⟨f, -, hf, hpage, hpte⟩ := hframe hpa
    obtain ⟨f', -, hf', hpage', hpte'⟩ := hframe hpa'
    rw [hpte, hpte'] at hsame
    obtain rfl := k2p_inj hsame
    obtain rfl : i = j := Owner.data.inj (hf.symm.trans hf')
    exact ⟨rfl, pageAt_inj (h.nodup i).of_append_left hpage hpage'⟩
  · intro i va pa f hpa hother hsame
    obtain ⟨g, -, hg, -, hpte⟩ := hframe hpa
    rw [hpte] at hsame
    obtain rfl := k2p_inj hsame
    have hused : o g ≠ .free := by
      rw [hg]
      exact nofun
    rcases hother with ⟨j, d, hd, htable⟩ | hkernel | hpt | hbusy
    · exact nomatch hg.symm.trans ((h.space j d hd).owned g htable)
    · exact nomatch hg.symm.trans (h.kernel g hkernel)
    · exact h.apart g hpt (h.pool.has hused)
    · exact hbusy (h.pool.busy hused)

/-- The steps that write the word of a program at an address, or map its page. Other programs do not
occur in it: that their stores do not matter is what is proved. -/
def Overwrites (s : AddressSpaces ι) (i : ι) (va : Nat) : SpaceAct ι → Prop
  | .map j c => j = i ∧ pageOf c.va = pageOf va
  | .copy _ page k _ => pageAt (s.calls i) (pageOf va) = some page ∧ k = wordIndex va
  | .store j va' _ => j = i ∧ va' = va
  | _ => False

/-- A step that maps another page leaves the mapping of a page as it is. Only `map` adds a call, and
a call for another page does not change what is found for this one. -/
theorem step_pageAt {act : SpaceAct ι} (hd : s.pgdir i = some d) (hkeep : ¬s.Overwrites i va act)
    (hstep : s.Step t act s') :
    s'.pgdir i = some d ∧ pageAt (s'.calls i) (pageOf va) = pageAt (s.calls i) (pageOf va) := by
  cases act with
  | init j =>
    obtain ⟨hnone, f, p, -, rfl⟩ := hstep
    have hji : i ≠ j := by
      rintro rfl
      exact nomatch hd.symm.trans hnone
    exact ⟨(Function.update_of_ne hji _ _).trans hd, rfl⟩
  | map j c =>
    obtain ⟨e, used, p, fuel, mem, ret, -, -, -, rfl⟩ := hstep
    refine ⟨hd, ?_⟩
    by_cases hji : i = j
    · subst hji
      have hpage : pageOf c.va ≠ pageOf va := fun hpage => hkeep ⟨rfl, hpage⟩
      simp only [Function.update_self]
      rw [pageAt, List.find?_cons, decide_eq_false hpage]
      rfl
    · simp only [Function.update_of_ne hji]
  | store j va' w =>
    simp only [Step] at hstep
    split at hstep
    · subst hstep
      exact ⟨hd, rfl⟩
    · subst hstep
      exact ⟨hd, rfl⟩
  | kalloc j =>
    obtain ⟨f, p, -, rfl⟩ := hstep
    exact ⟨hd, rfl⟩
  | kernelAlloc =>
    obtain ⟨f, p, -, rfl⟩ := hstep
    exact ⟨hd, rfl⟩
  | copy j f k w =>
    cases hstep
    exact ⟨hd, rfl⟩
  | kernelStore a w =>
    cases hstep
    exact ⟨hd, rfl⟩

/-- The word at an address stays until it is written there, whoever writes elsewhere. The page stays
where it is, and its words are written only by steps that lead there. -/
theorem Inv.load_step {act : SpaceAct ι} (h : Inv t s o) (hok : s.Allowed t act)
    (hstep : s.Step t act s') (hkeep : ¬s.Overwrites i va act) (hword : va % 8 = 0)
    (hload : s.load t i va = some w) : s'.load t i va = some w := by
  obtain ⟨pa, hpa, -⟩ := Option.map_eq_some_iff.mp hload
  obtain ⟨f, hva, hpage, hf, -⟩ := h.reach_some hpa
  cases hd : s.pgdir i with
  | none =>
    rw [reach, hd] at hpa
    cases hpa
  | some d =>
    obtain ⟨o', h', hsame⟩ := h.step hok hstep
    obtain ⟨hd', hpage'⟩ := step_pageAt hd hkeep hstep
    rw [h.load_eq hd hva hword, hpage, Option.map_some] at hload
    rw [h'.load_eq hd' hva hword, hpage', hpage, Option.map_some, ← hload]
    congr 1
    apply (hsame f i hf).2
    intro hwrites
    apply hkeep
    cases act with
    | copy j g k w => exact ⟨hwrites.1 ▸ hpage, hwrites.2⟩
    | store j va' w =>
      obtain ⟨pa', hpa', hentry⟩ := hwrites
      obtain ⟨g, hva', hpage', hg, rfl⟩ := h.reach_some hpa'
      rw [p2k_word (h.data_kspace hg) hok] at hentry
      obtain ⟨rfl, hindex⟩ := Page.entry_inj hentry
      obtain rfl : i = j := Owner.data.inj (hf.symm.trans hg)
      have hpages := pageAt_inj (h.nodup i).of_append_left hpage' hpage
      refine ⟨rfl, ?_⟩
      have hoffset : va' % pageSize / 8 = va % pageSize / 8 := congrArg Fin.val hindex
      have hword' : va' % 8 = 0 := hok
      unfold pageOf at hpages
      unfold pageSize at hoffset
      omega
    | init j => exact hwrites.elim
    | kalloc j => exact hwrites.elim
    | map j c => exact hwrites.elim
    | kernelAlloc => exact hwrites.elim
    | kernelStore a w => exact hwrites.elim

/-- The runs in which nobody writes the word of a program at an address, or maps its page. -/
abbrev RunWithout (t : KernelPt) (i : ι) (va : Nat) : AddressSpaces ι → AddressSpaces ι → Prop :=
  Steps (Step t) fun s act => s.Allowed t act ∧ ¬s.Overwrites i va act

/-- What a program has stored at an address is what it loads there, until it stores there again,
whatever the other programs and the kernel do in between. -/
theorem store_load {s₁ s₂ : AddressSpaces ι} {pa : Nat} (hboot : Boot t s₀)
    (hclean : s₀.CleanPool) (hrun : Run t s₀ s) (hword : va % 8 = 0)
    (hpa : s.reach t i va = some pa) (hstore : s.Step t (.store i va w) s₁)
    (hrest : RunWithout t i va s₁ s₂) : s₂.load t i va = some w := by
  obtain ⟨o, h⟩ := (hboot.inv hclean).run hrun
  have hok : s.Allowed t (.store i va w) := hword
  obtain ⟨o₁, h₁, -⟩ := h.step hok hstore
  have hload : s₁.load t i va = some w := by
    obtain ⟨f, hva, hpage, hf, heq⟩ := h.reach_some hpa
    cases hd : s.pgdir i with
    | none =>
      rw [reach, hd] at hpa
      cases hpa
    | some d =>
      simp only [Step, hpa] at hstore
      subst hstore heq
      have hentry := p2k_word (h.data_kspace hf) hword
      rw [h₁.load_eq hd hva hword, hpage, Option.map_some, hentry]
      exact congrArg some (Function.update_self ..)
  have hinv : (∃ o, Inv t s₂ o) ∧ s₂.load t i va = some w := by
    apply hrest.invariant (I := fun s => (∃ o, Inv t s o) ∧ s.load t i va = some w)
      ⟨⟨o₁, h₁⟩, hload⟩
    rintro u v act ⟨⟨o, hu⟩, hload⟩ ⟨hok, hkeep⟩ hstep
    obtain ⟨o', hv, -⟩ := hu.step hok hstep
    exact ⟨⟨o', hv⟩, hu.load_step hok hstep hkeep hword hload⟩
  exact hinv.2

/-! ## Two programs

The two are given their directories and pages one after the other; the pages are the first of the
pool. -/

/-- Page `n` of the last pages below `phystop`. The pool of the examples is made of these ten pages,
which are far from the tables of the kernel. -/
def topPage (n : Fin 10) : Page where
  addr := kspaceMask + 0x3eff0000 + pageSize * n
  lt := by
    have := n.isLt
    unfold kspaceMask pageSize
    omega
  aligned := by
    unfold kspaceMask pageSize
    omega

/-- The pool has sixteen pages, in a memory with nothing but the tables of the kernel. -/
def bootSpaces : AddressSpaces Bool where
  mem := firstKernelPt.image
  pool := Pool.boot.poolInit (kspaceMask + 0x3eff0000) (p2k phystop)
  kernel := []
  pgdir _ := none
  held _ := []
  calls _ := []

theorem boot_bootSpaces : Boot firstKernelPt bootSpaces :=
  ⟨firstKernelPt_in, ⟨kspaceMask + 0x3eff0000, rfl, by decide, by decide, by decide⟩, rfl,
    fun _ => rfl, fun _ => rfl, fun _ => rfl⟩

/-- Its pool is clean, as all words are zero but those of the kernel's tables. -/
theorem clean_bootSpaces : bootSpaces.CleanPool := by
  rintro f ⟨k, -, haddr⟩ i
  have hzero : firstKernelPt.image (f.entry i) = 0 := by
    obtain ⟨hbase, -⟩ := f.entry_parts i
    have hne : ∀ n, f.addr ≠ (tablePage n).addr := by
      intro n heq
      have hn := n.isLt
      rw [haddr] at heq
      change kspaceMask + 0x3eff0000 + pageSize * k = kspaceMask + pageSize * n.val at heq
      unfold pageSize at heq
      omega
    simp only [KernelPt.image, firstKernelPt, hbase, if_neg (hne _)]
  rw [show bootSpaces.mem (f.entry i) = 0 from hzero]
  rfl

/-- The page at `0x1000` of both programs. -/
def firstCall (b : Bool) : PageCall := ⟨0x1000, 4096, topPage (if b then 6 else 1)⟩

/-- Both programs get a directory and a page, which is mapped at `0x1000`. The two directories and
their tables are eight pages of the pool, and the two programs have the same address for different
pages. -/
theorem run_bootSpaces : ∃ s, Run firstKernelPt bootSpaces s ∧
    (∀ b, s.pgdir b = some (topPage (if b then 5 else 0))) ∧
    ∀ b, s.calls b = [firstCall b] := by
  obtain ⟨p, p₁, h₀, p₂, h₁, p₃, h₂, p₄, h₃, p₅, h₄, p₆, h₅, p₇, h₆, hgives⟩ : ∃ p,
      bootSpaces.pool.Gives [topPage 0, topPage 1, topPage 2, topPage 3, topPage 4, topPage 5,
        topPage 6, topPage 7, topPage 8, topPage 9] p :=
    ⟨_, _, rfl, _, rfl, _, rfl, _, rfl, _, rfl, _, rfl, _, rfl, _, rfl, _, rfl, _, rfl, rfl⟩
  obtain ⟨mem₁, mem₂, hmap₁, hmap₂⟩ : ∃ mem₁ mem₂,
      myUvmMapPages 2 (myPgdirInit bootSpaces.mem (topPage 0)).1 [topPage 2, topPage 3, topPage 4]
        (topPage 0) 0x1000 4096 (k2p (topPage 1).addr) = some (.ok (mem₁, [], 0)) ∧
      myUvmMapPages 2 (myPgdirInit mem₁ (topPage 5)).1 [topPage 7, topPage 8, topPage 9]
        (topPage 5) 0x1000 4096 (k2p (topPage 6).addr) = some (.ok (mem₂, [], 0)) :=
    ⟨_, _, rfl, rfl⟩
  have hcall : ∀ b, (firstCall b).SinglePage := by
    intro b
    constructor
    · exact (by decide : 0x1000 < 2 ^ 64)
    · exact (by decide : 1 ≤ 4096)
    · exact (by decide : uvmMapEnd 0x1000 4096 = roundDownPage 0x1000)
  refine ⟨_, (((((Steps.refl _).tail (a := .init false) trivial ⟨rfl, topPage 0, p₁, h₀, rfl⟩).tail
    (a := .kalloc false) trivial ⟨topPage 1, p₂, h₁, rfl⟩).tail
    (a := .map false (firstCall false)) ?_
      ⟨topPage 0, [topPage 2, topPage 3, topPage 4], p₅, 2, mem₁, 0, rfl,
        ⟨p₃, h₂, p₄, h₃, p₅, h₄, rfl⟩, hmap₁, rfl⟩).tail
    (a := .init true) trivial ⟨rfl, topPage 5, p₆, h₅, rfl⟩).tail
    (a := .kalloc true) trivial ⟨topPage 6, p₇, h₆, rfl⟩ |>.tail
    (a := .map true (firstCall true)) ?_
      ⟨topPage 5, [topPage 7, topPage 8, topPage 9], p, 2, mem₂, 0, rfl, hgives, hmap₂, rfl⟩,
    ?_, ?_⟩
  · exact ⟨hcall false, by decide, List.mem_cons_self⟩
  · exact ⟨hcall true, by decide, List.mem_cons_self⟩
  · intro b
    cases b <;> rfl
  · intro b
    cases b <;> rfl

/-- After the run of `run_bootSpaces`, `0x1008` is an address of both programs. -/
theorem reach_bootSpaces {s : AddressSpaces Bool} (hrun : Run firstKernelPt bootSpaces s)
    (hpgdir : ∀ b, s.pgdir b = some (topPage (if b then 5 else 0)))
    (hcalls : ∀ b, s.calls b = [firstCall b]) (b : Bool) :
    s.reach firstKernelPt b 0x1008 = some (k2p (firstCall b).page.addr + 8) := by
  have hpage : pageAt [firstCall b] (pageOf 0x1008) = some (firstCall b).page := by
    cases b <;> rfl
  obtain ⟨o, h⟩ := (boot_bootSpaces.inv clean_bootSpaces).run hrun
  rw [h.reach_eq (hpgdir b), if_pos (by decide), hcalls b, hpage]
  rfl

/-- The programs get at different frames with the same address. -/
theorem isolated_two : ∃ s, Run firstKernelPt bootSpaces s ∧ ∃ pa pa',
    s.reach firstKernelPt false 0x1008 = some pa ∧ s.reach firstKernelPt true 0x1008 = some pa' ∧
      pteAddress pa ≠ pteAddress pa' ∧ s.reach firstKernelPt true 0x2000 = none := by
  obtain ⟨s, hrun, hpgdir, hcalls⟩ := run_bootSpaces
  obtain ⟨hreach, hframes, -⟩ := isolated boot_bootSpaces clean_bootSpaces hrun
  have hfirst := reach_bootSpaces hrun hpgdir hcalls
  refine ⟨s, hrun, _, _, hfirst false, hfirst true, ?_, ?_⟩
  · intro hsame
    exact nomatch (hframes false true _ _ _ _ (hfirst false) (hfirst true) hsame).1
  · rw [hreach true _ 0x2000 (hpgdir true), hcalls true]
    rfl

/-- The memory with an entry for the frame at 0 left in a page. -/
def leave (s : AddressSpaces ι) (f : Page) (k : Fin 512) : AddressSpaces ι :=
  { s with mem := Function.update s.mem (f.entry k) pteUserData }

/-- Without clean pages a program gets at a frame that nobody has mapped for it: one page is mapped
at 0, and its last table is the fifth page of the pool, in which an entry was left. -/
theorem reached_through_stale_entry : Boot firstKernelPt (bootSpaces.leave (topPage 4) 0xd3) ∧
    ∃ s, Run firstKernelPt (bootSpaces.leave (topPage 4) 0xd3) s ∧
      (s.calls false).map PageCall.va = [0] ∧ s.reach firstKernelPt false 0xd3000 = some 0 := by
  refine ⟨⟨?_, ⟨kspaceMask + 0x3eff0000, rfl, by decide, by decide, by decide⟩, rfl, fun _ => rfl,
    fun _ => rfl, fun _ => rfl⟩, ?_⟩
  · apply In.keep firstKernelPt_in
    intro u hu k
    apply Function.update_of_ne
    intro hentry
    obtain ⟨rfl, -⟩ := Page.entry_inj hentry
    exact absurd hu (by decide)
  · obtain ⟨p, p₁, h₀, p₂, h₁, p₃, h₂, p₄, h₃, p₅, h₄, rfl⟩ : ∃ p,
        (bootSpaces.leave (topPage 4) 0xd3).pool.Gives
          [topPage 0, topPage 1, topPage 2, topPage 3, topPage 4] p :=
      ⟨_, _, rfl, _, rfl, _, rfl, _, rfl, _, rfl, rfl⟩
    obtain ⟨mem, hmap, hreach⟩ : ∃ mem,
        myUvmMapPages 2 (myPgdirInit (bootSpaces.leave (topPage 4) 0xd3).mem (topPage 0)).1
          [topPage 2, topPage 3, topPage 4] (topPage 0) 0 4096 (k2p (topPage 1).addr) =
            some (.ok (mem, [], 0)) ∧
          ((mmu mem (k2p (topPage 0).addr) (k2p firstKernelPt.root.addr) 0xd3000).filter
            Translation.user).map Translation.pa = some 0 := by
      refine ⟨_, rfl, ?_⟩
      decide +kernel
    have hcall : PageCall.SinglePage ⟨0, 4096, topPage 1⟩ := by
      constructor
      · exact (by decide : 0 < 2 ^ 64)
      · exact (by decide : 1 ≤ 4096)
      · exact (by decide : uvmMapEnd 0 4096 = roundDownPage 0)
    obtain ⟨s, hrun, hmem, hpgdir, hcalls⟩ : ∃ s,
        Run firstKernelPt (bootSpaces.leave (topPage 4) 0xd3) s ∧ s.mem = mem ∧
        s.pgdir false = some (topPage 0) ∧ s.calls false = [⟨0, 4096, topPage 1⟩] := by
      refine ⟨_, (((Steps.refl (bootSpaces.leave (topPage 4) 0xd3)).tail (a := .init false) trivial
        ⟨rfl, topPage 0, p₁, h₀, rfl⟩).tail (a := .kalloc false) trivial
        ⟨topPage 1, p₂, h₁, rfl⟩).tail (a := .map false ⟨0, 4096, topPage 1⟩) ?_
        ⟨topPage 0, [topPage 2, topPage 3, topPage 4], _, 2, mem, 0, rfl,
          ⟨p₃, h₂, p₄, h₃, _, h₄, rfl⟩, hmap, rfl⟩, rfl, rfl, rfl⟩
      exact ⟨hcall, by decide, List.mem_cons_self⟩
    refine ⟨s, hrun, by rw [hcalls]; rfl, ?_⟩
    rw [reach, hpgdir, Option.bind_some, hmem]
    exact hreach

/-- One program stores 7, and then the other one 9 at the same address. -/
theorem store_load_two : ∃ s, Run firstKernelPt bootSpaces s ∧
    s.load firstKernelPt false 0x1008 = some 7 := by
  obtain ⟨s, hrun, hpgdir, hcalls⟩ := run_bootSpaces
  have hreach := reach_bootSpaces hrun hpgdir hcalls
  obtain ⟨s₁, hstore⟩ : ∃ s₁, s.Step firstKernelPt (.store false 0x1008 7) s₁ := ⟨_, rfl⟩
  obtain ⟨s₂, hother⟩ : ∃ s₂, s₁.Step firstKernelPt (.store true 0x1008 9) s₂ := ⟨_, rfl⟩
  have hword : 0x1008 % 8 = 0 := by decide
  have hrest : RunWithout firstKernelPt false 0x1008 s₁ s₂ :=
    (Steps.refl s₁).tail (a := .store true 0x1008 9) ⟨hword, fun h => nomatch h.1⟩ hother
  have hrun₁ : Run firstKernelPt bootSpaces s₁ := by
    apply hrun.tail (a := .store false 0x1008 7) _ hstore
    exact hword
  have hrun₂ : Run firstKernelPt bootSpaces s₂ := by
    apply hrun₁.tail (a := .store true 0x1008 9) _ hother
    exact hword
  exact ⟨s₂, hrun₂, store_load boot_bootSpaces clean_bootSpaces hrun hword (hreach false) hstore hrest⟩

end AddressSpaces

end KernelAarch64.Core
