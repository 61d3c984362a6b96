import KernelAarch64.Core.Threads
import KernelAarch64.Core.Trap

/-!
# The start of a process (`core/proc.c`, `asm/trap.S`)

`alloc_proc` puts an empty `Trapframe` at the top of the new kernel stack and an empty
`struct context` below it; its caller sets `r30` to `to_forkret` or `to_initret`. The first `swtch`
to the process returns there, and `trap_return` takes the empty frame to user mode.

The main result is `process_starts`. `setEntry_spec` says what is on the new stack when the entry
point has been set; `created_starts` of `Core.Threads` brings the process there on some CPU,
whenever that is; and `trapReturn_zero` takes it to user mode.
-/

namespace KernelAarch64.Core

open KernelAarch64.Lib KernelAarch64.Common

/-- `KSTACKSIZE` -/
def kstackSize : UInt64 := 4096

/-- Where `p->kstack`, `p->tf` and `p->context` are. -/
def kstackField (p : UInt64) : UInt64 := p + 16
def tfField (p : UInt64) : UInt64 := p + 40
def contextField (p : UInt64) : UInt64 := p + 48

/-- What `alloc_proc` does to the kernel stack that `kalloc` gave it, for the entry `p`. -/
def allocProcStack (mem : Memory) (p stack : UInt64) : Memory :=
  let mem := store64 mem (kstackField p) stack
  let stack := stack + kstackSize
  let stack := stack - .ofNat sizeofTrapframe
  let mem := (memset mem stack 0 (.ofNat sizeofTrapframe)).2
  let mem := store64 mem (tfField p) stack
  let stack := stack - .ofNat sizeofContext
  let mem := (memset mem stack 0 (.ofNat sizeofContext)).2
  store64 mem (contextField p) stack

/-- `p->context->r30 = entry` -/
def setEntry (mem : Memory) (p entry : UInt64) : Memory :=
  store64 mem (load64 mem (contextField p) + 120) entry

section Frames

variable {mem : Memory} {p a : UInt64} {n : Nat}

/-- Where all bytes are zero all words are. The frame and the context of a new process are read as
words after `memset`. -/
theorem words_eq_replicate (hn : 8 * n < 2 ^ 64) (h : ∀ a ∈ bytesAt p (8 * n), mem a = 0) :
    words mem p n = List.replicate n 0 := by
  have hzero : ∀ q, load64 (fun _ => 0) q = 0 := by
    intro q
    have hbyte : leNat 8 (fun _ => 0) = 0 := rfl
    rw [load64, hbyte]
    rfl
  have hwords : ∀ q m, words (fun _ => 0) q m = List.replicate m 0 := by
    intro q m
    induction m generalizing q with
    | zero => rfl
    | succ m ih => rw [words, hzero, ih, List.replicate_succ]
  rw [← hwords p n]
  exact words_congr hn h

/-- `memset` clears the bytes it is called for. -/
theorem memset_zero (mem : Memory) (s n : UInt64) {a : UInt64} (ha : a ∈ bytesAt s n.toNat) :
    (memset mem s 0 n).2 a = 0 := by
  have heq : a = s + .ofNat (a - s).toNat := by
    rw [UInt64.ofNat_toNat]
    grind
  rw [heq, memset_inside _ _ _ ha]
  rfl

/-- `memset` leaves the others: a byte outside of the range that it was given keeps its value. -/
theorem memset_notMem (mem : Memory) (s n : UInt64) (ha : a ∉ bytesAt s n.toNat) :
    (memset mem s 0 n).2 a = mem a := by
  rw [memset_eq_applyWrites, applyWrites_map, if_neg]
  intro hmem
  obtain ⟨k, hk, heq⟩ := List.mem_map.mp hmem
  rw [List.mem_range] at hk
  apply ha
  show (a - s).toNat < n.toNat
  rw [← heq, add_ofNat_sub, UInt64.toNat_ofNat']
  exact lt_of_le_of_lt (Nat.mod_le _ _) hk

end Frames

/-! ## What the new process has on its stack

From the top of the page downwards: the frame for `trap_return`, then the context for `swtch`. Both
are cleared, and the entry of the process table keeps their addresses. -/

/-- The kernel stack that `kalloc` gave for the entry `p`: a page that is none of the entry. -/
structure KStack (p stack : UInt64) : Prop where
  disjoint : Disjoint (bytesAt p 56) (bytesAt stack 4096)

/-- `p->context` of a new process. -/
def startContext (stack : UInt64) : UInt64 := stack + kstackSize - 272 - 128

/-- `p->tf` of a new process. -/
def startFrame (stack : UInt64) : UInt64 := stack + kstackSize - 272

section Start

variable {mem mem' : Memory} {p stack : UInt64}

/-- The frame is in the page of the stack. -/
theorem startFrame_subset (stack : UInt64) :
    bytesAt (startFrame stack) sizeofTrapframe ⊆ bytesAt stack 4096 := by
  have hbase : startFrame stack = stack + 3824 := by
    unfold startFrame kstackSize
    grind
  rw [hbase]
  exact bytesAt_add_subset (by decide)

/-- The context is in the page of the stack. -/
theorem startContext_subset (stack : UInt64) :
    bytesAt (startContext stack) sizeofContext ⊆ bytesAt stack 4096 := by
  have hbase : startContext stack = stack + 3696 := by
    unfold startContext kstackSize
    grind
  rw [hbase]
  exact bytesAt_add_subset (by decide)

/-- The context is below the frame. -/
theorem startContext_below {a : UInt64} (ha : a ∈ bytesAt (startFrame stack) sizeofTrapframe) :
    a ∉ bytesAt (startContext stack) sizeofContext :=
  notMem_bytesAt_below (by decide) ha

/-- The stack is no part of the entry. -/
theorem field_notMem (h : KStack p stack) {k a : UInt64} (hk : k.toNat + 8 ≤ 56)
    (ha : a ∈ bytesAt stack 4096) : ¬ a - (p + k) < 8 := by
  intro hin
  exact Set.disjoint_left.mp h.disjoint (bytesAt_add_subset hk hin) ha

/-- The frame is empty: `memset` has cleared it, and the stores that follow go elsewhere. -/
theorem allocProcStack_frame (h : KStack p stack) (mem : Memory) {a : UInt64}
    (ha : a ∈ bytesAt (startFrame stack) sizeofTrapframe) : allocProcStack mem p stack a = 0 := by
  have hpage := startFrame_subset stack ha
  show store64 (memset _ (startContext stack) 0 _).2 (p + 48) _ a = 0
  rw [store64_outside _ _ (field_notMem h (by decide) hpage),
    memset_notMem _ _ _ (startContext_below ha)]
  show store64 (memset _ (startFrame stack) 0 _).2 (p + 40) _ a = 0
  rw [store64_outside _ _ (field_notMem h (by decide) hpage)]
  exact memset_zero _ _ _ ha

theorem allocProcStack_context (h : KStack p stack) (mem : Memory) {a : UInt64}
    (ha : a ∈ bytesAt (startContext stack) sizeofContext) : allocProcStack mem p stack a = 0 := by
  show store64 (memset _ (startContext stack) 0 _).2 (p + 48) _ a = 0
  rw [store64_outside _ _ (field_notMem h (by decide) (startContext_subset stack ha))]
  exact memset_zero _ _ _ ha

/-- The context and the frame of a new process, when the entry point is set. Between the two the
caller of `alloc_proc` may have done anything else. -/
theorem setEntry_spec (entry : UInt64) (h : KStack p stack)
    (hmem : ∀ a, a ∈ bytesAt stack 4096 ∨ a ∈ bytesAt (contextField p) 8 →
      mem' a = allocProcStack mem p stack a) :
    load64 (setEntry mem' p entry) (contextField p) = startContext stack ∧
      contextAt (setEntry mem' p entry) (startContext stack) =
        ⟨List.replicate 15 0 ++ [entry], startFrame stack, entry⟩ ∧
      ∀ a ∈ bytesAt (startFrame stack) sizeofTrapframe, setEntry mem' p entry a = 0 := by
  have hptr : load64 mem' (contextField p) = startContext stack := by
    rw [load64_congr fun a ha => hmem a (.inr ha)]
    exact load64_store64_self _ _ _
  have hset : setEntry mem' p entry = store64 mem' (startContext stack + 120) entry := by
    rw [setEntry, hptr]
  have hlast : bytesAt (startContext stack + 120) 8 ⊆ bytesAt (startContext stack) sizeofContext :=
    bytesAt_add_subset (by decide)
  rw [hset]
  refine ⟨?_, ?_, ?_⟩
  · rw [← hptr]
    apply load64_congr
    intro a ha
    apply store64_outside
    intro hin
    exact field_notMem h (by decide) (startContext_subset stack (hlast (hptr ▸ hin))) ha
  · have hfirst : words (store64 mem' (startContext stack + 120) entry) (startContext stack) 15 =
        List.replicate 15 0 := by
      apply words_eq_replicate (by decide)
      intro a ha
      have hin : a ∈ bytesAt (startContext stack) sizeofContext := by
        show (a - startContext stack).toNat < 128
        exact lt_trans ha (by decide)
      rw [store64_outside, hmem a (.inl (startContext_subset stack hin)),
        allocProcStack_context h mem hin]
      intro hlt
      have hbelow : a ∉ bytesAt (startContext stack + 120 - 120) 120 :=
        notMem_bytesAt_below (by decide) (UInt64.lt_iff_toNat_lt.mp hlt)
      rw [UInt64.add_sub_cancel] at hbelow
      exact hbelow ha
    have hwords : words (store64 mem' (startContext stack + 120) entry) (startContext stack) 16 =
        List.replicate 15 0 ++ [entry] := by
      show words _ _ (15 + 1) = _
      rw [words_append, hfirst]
      exact congrArg (fun w => List.replicate 15 0 ++ [w]) (load64_store64_self _ _ _)
    have hsp : startContext stack + 128 = startFrame stack := UInt64.sub_add_cancel _ _
    rw [contextAt, hwords, hsp]
    rfl
  · intro a ha
    rw [store64_outside, hmem a (.inl (startFrame_subset stack ha)), allocProcStack_frame h mem ha]
    intro hin
    exact startContext_below ha (hlast hin)

/-- A frame of zeros takes `trap_return` to address 0 in user mode, with all registers zero. -/
theorem trapReturn_zero (k : Cpu) (h : ∀ a ∈ bytesAt k.sp sizeofTrapframe, mem a = 0) :
    userState (execAll trapReturn (k, mem)).1 = ⟨List.replicate 31 0, 0, 0⟩ ∧
      (execAll trapReturn (k, mem)).1.spEl0 = 0 ∧
      (execAll trapReturn (k, mem)).1.sp = k.sp + 272 := by
  have hwords : words mem k.sp 34 = [0, 0, 0, 0] ++ List.replicate 30 0 :=
    words_eq_replicate (by decide) h
  obtain ⟨-, hsp, hspEl0, hpstate, hpc, hx⟩ := trapReturn_spec k mem
  rw [trapframeAt_of_words hwords] at hspEl0 hpstate hpc hx
  refine ⟨?_, hspEl0, hsp⟩
  rw [userState, hpstate, hpc, hx]
  rfl

end Start

section Threads

variable {ι τ : Type} [DecidableEq ι] [DecidableEq τ] {slot : τ → UInt64} {main : ι → τ}
  {s₀ s s₁ s₂ : ThreadSystem ι τ} {c d : ι} {v : τ} {own : Set UInt64}

open ThreadSystem

/-- A process that `alloc_proc` has made runs for the first time, whichever CPU takes it up and
whatever the others have done meanwhile: it comes to its entry point on its own kernel stack, and
when `forkret` or `initret` returns, `trap_return` takes it to address 0 in user mode with all
registers zero and an empty kernel stack. -/
theorem process_starts {mem mem' m : Memory} {p stack entry : UInt64} {k : Cpu}
    (hstack : KStack p stack) (hslot : slot v = contextField p)
    (halloc : ∀ a, a ∈ bytesAt stack 4096 ∨ a ∈ bytesAt (contextField p) 8 →
      mem' a = allocProcStack mem p stack a)
    (hentry : ∀ a, a ∈ bytesAt stack 4096 ∨ a ∈ bytesAt (contextField p) 8 →
      s.mem a = setEntry mem' p entry a)
    (hown : bytesAt stack 4096 ⊆ own)
    (hboot : Boot slot s₀ main) (hrun : Run slot s₀ s)
    (hok : s.Allowed slot (.create c v own)) (hcreate : s.step (.create c v own) = some s₁)
    (hrest : RunWithout slot v s₁ s₂) (hd : s₂.job d = .run v)
    (hsp : k.sp = (s₂.cpu d).sp)
    (hret : ∀ a ∈ bytesAt k.sp sizeofTrapframe, m a = s₂.mem a) :
    (s₂.cpu d).pc = entry ∧ (s₂.cpu d).sp = startFrame stack ∧
      userState (execAll trapReturn (k, m)).1 = ⟨List.replicate 31 0, 0, 0⟩ ∧
      (execAll trapReturn (k, m)).1.spEl0 = 0 ∧
      (execAll trapReturn (k, m)).1.sp = stack + kstackSize := by
  obtain ⟨hptr, hcontext, hframe⟩ := setEntry_spec entry hstack halloc
  obtain ⟨hstart, hkept⟩ := created_starts hboot hrun hok hcreate hrest hd
  have hslotPtr : load64 s.mem (slot v) = startContext stack := by
    rw [hslot, ← hptr]
    exact load64_congr fun a ha => hentry a (.inr ha)
  have hcpu : cpuContext (s₂.cpu d) =
      ⟨List.replicate 15 0 ++ [entry], startFrame stack, entry⟩ := by
    rw [hstart, hslotPtr, ← hcontext]
    exact contextAt_congr fun a ha => hentry a (.inl (startContext_subset stack ha))
  have hpc : (s₂.cpu d).pc = entry := congrArg ThreadContext.pc hcpu
  have hspd : (s₂.cpu d).sp = startFrame stack := congrArg ThreadContext.sp hcpu
  have hksp : k.sp = startFrame stack := hsp.trans hspd
  -- The trap frame is on the stack page, which nobody has written since `alloc_proc`.
  have hzero : ∀ a ∈ bytesAt k.sp sizeofTrapframe, m a = 0 := by
    intro a ha
    have ha' := ha
    rw [hksp] at ha'
    have hpage := startFrame_subset stack ha'
    have hcontextNot : a ∉ bytesAt (load64 s.mem (slot v)) sizeofContext := by
      rw [hslotPtr]
      exact startContext_below ha'
    have hslotNot : a ∉ bytesAt (slot v) 8 := by
      rw [hslot]
      exact field_notMem hstack (by decide) hpage
    rw [hret a ha, hkept a (hown hpage) hcontextNot hslotNot, hentry a (.inl hpage)]
    exact hframe a ha'
  obtain ⟨huser, hspEl0, htop⟩ := trapReturn_zero k hzero
  refine ⟨hpc, hspd, huser, hspEl0, ?_⟩
  rw [htop, hksp]
  exact UInt64.sub_add_cancel _ _

/-- The memory in which the process of the entry at `0x40d0` has been made. -/
def startMemory : Memory :=
  setEntry (allocProcStack (fun _ => 0) 0x40d0 0x5000) 0x40d0 0x7000

/-- A process that is made by the thread of the only CPU, and starts when that thread switches to
it. -/
theorem process_starts_two : ∃ s₂ : ThreadSystem Unit Bool, s₂.job () = .run true ∧
    (s₂.cpu ()).pc = 0x7000 ∧
    userState (execAll trapReturn (s₂.cpu (), s₂.mem)).1 = ⟨List.replicate 31 0, 0, 0⟩ := by
  have hstack : KStack 0x40d0 0x5000 := by
    have hentry : bytesAt 0x40d0 56 ⊆ addrs 0 0x5000 :=
      bytesAt_subset (by decide) (by decide) (by decide)
    have hpage : bytesAt 0x5000 4096 ⊆ addrs 0x5000 0x6000 :=
      bytesAt_subset (by decide) (by decide) (by decide)
    exact ⟨(disjoint_addrs (le_refl _)).mono hentry hpage⟩
  have hown : bytesAt 0x5000 4096 ⊆ secondOwn :=
    bytesAt_subset (by decide) (by decide) (by decide)
  obtain ⟨hptr, -, -⟩ := setEntry_spec 0x7000 hstack fun a _ =>
    (rfl : allocProcStack (fun _ => 0) 0x40d0 0x5000 a = _)
  have hallowed := allowed_oneThread hptr ((startContext_subset 0x5000).trans hown)
  obtain ⟨s₂, hrest, hjob, -⟩ := call_twoThreads startMemory (startContext 0x5000) true
  have hcall : RunWithout twoSlots true (twoThreads startMemory (startContext 0x5000)) s₂ :=
    Steps.head (a := .call () true) ⟨allowed_twoThreads hptr, fun h => nomatch h⟩ rfl hrest
  have hslot : twoSlots true = contextField 0x40d0 := rfl
  obtain ⟨hpc, -, huser, -⟩ := process_starts hstack hslot (fun a _ => rfl) (fun a _ => rfl) hown
    (boot_oneThread startMemory (startContext 0x5000)) (Steps.refl _) hallowed rfl hcall hjob rfl
    fun a _ => rfl
  exact ⟨s₂, hjob, hpc, huser⟩

end Threads

end KernelAarch64.Core
