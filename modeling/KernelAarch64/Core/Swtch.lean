import KernelAarch64.Common.Memory
import KernelAarch64.Lib.AArch64
import KernelAarch64.Lib.Steps

/-!
# Context switch (`asm/swtch.S`)

`swtch(old, new)` pushes the registers `x15` to `x30` on the stack, which makes a `struct context`
there, stores the address of it in `*old`, and pops the registers of the context `new`. What it
returns to is in the `x30` it has popped.

`swtch_spec` says what it leaves, in terms of the contexts: the caller's is in memory, and the CPU
has the new one. `within_swtch` says which bytes it writes and reads, so that on several CPUs it may
be taken as one step (`Core.Threads`).
-/

namespace KernelAarch64.Core

open KernelAarch64.Lib KernelAarch64.Common

/-- `swtch`, the argument `old` in `x0` and `new` in `x1`: sixteen registers go to the stack in
pairs, the stack pointers are exchanged, and the pairs of the new stack come back in the other
order. -/
def swtch : List Instr :=
  [ -- save callee saved registers
    .stp 29 30, .stp 27 28, .stp 25 26, .stp 23 24, .stp 21 22, .stp 19 20, .stp 17 18, .stp 15 16,
    -- switch sp
    .movFromSp 14, .str 14 0, .movToSp 1,
    -- switch to new context
    .ldp 15 16, .ldp 17 18, .ldp 19 20, .ldp 21 22, .ldp 23 24, .ldp 25 26, .ldp 27 28, .ldp 29 30,
    .ret]

/-- `sizeof(struct context)` -/
def sizeofContext : Nat := 128

/-- The pairs of registers of `struct context`, first to last. -/
def contextPairs : List (Nat × Nat) :=
  [(15, 16), (17, 18), (19, 20), (21, 22), (23, 24), (25, 26), (27, 28), (29, 30)]

/-- The pushes and pops, put together. -/
theorem swtch_eq : swtch = pushes contextPairs.reverse ++
    ([.movFromSp 14, .str 14 0, .movToSp 1] ++ (pops contextPairs ++ [.ret])) := rfl

/-- Where a thread is: the registers of `struct context`, the stack pointer and the address it goes
on at. -/
@[ext]
structure ThreadContext where
  r : List UInt64
  sp : UInt64
  pc : UInt64
  deriving DecidableEq

/-- The context of the thread that runs on a CPU. -/
def cpuContext (k : Cpu) : ThreadContext := ⟨(regsOf contextPairs).map k.x, k.sp, k.pc⟩

/-- The context of a thread at its call of `swtch`: it goes on where `swtch` returns to. -/
def callContext (k : Cpu) : ThreadContext := ⟨(regsOf contextPairs).map k.x, k.sp, k.x 30⟩

/-- The context that `swtch(.., p)` loads. The last of the registers is `r30`. -/
def contextAt (mem : Memory) (p : UInt64) : ThreadContext :=
  ⟨words mem p 16, p + 128, (words mem p 16).getLastD 0⟩

section Spec

variable {k : Cpu} {mem : Memory}

/-- The `struct context` of the caller. -/
def frameOf (sp : UInt64) : Set UInt64 := bytesAt (sp - 128) sizeofContext

theorem contextAt_congr {mem' : Memory} {p : UInt64}
    (h : ∀ a ∈ bytesAt p sizeofContext, mem a = mem' a) : contextAt mem p = contextAt mem' p := by
  have hwords : words mem p 16 = words mem' p 16 := words_congr (by decide) h
  rw [contextAt, hwords, contextAt]

/-- The registers and the memory when the registers are pushed and `*old` is set. -/
theorem execAll_save (k : Cpu) (mem : Memory) :
    ∃ m, (∀ a ∉ frameOf k.sp, m a = mem a) ∧
      words m (k.sp - 128) 16 = (regsOf contextPairs).map k.x ∧
      execAll [.movFromSp 14, .str 14 0, .movToSp 1] (execAll (pushes contextPairs.reverse) (k, mem)) =
        ({ k.setX 14 (k.sp - 128) with sp := k.x 1 }, store64 m (k.x 0) (k.sp - 128)) := by
  have hlen : 16 * contextPairs.reverse.length < 2 ^ 64 := by decide
  obtain ⟨m, hexec, hwords, hkept⟩ := execAll_pushes k mem hlen
  refine ⟨m, hkept, hwords, ?_⟩
  rw [hexec]
  rfl

/-- `swtch`, where the caller's context and `*old` do not overlap and the new context is elsewhere
than both. The CPU goes on with the new context, and the caller's is where `*old` says. -/
theorem swtch_spec (mem : Memory) (hslot : ∀ a ∈ frameOf k.sp, a ∉ bytesAt (k.x 0) 8)
    (hnew : ∀ a ∈ bytesAt (k.x 1) sizeofContext, a ∉ frameOf k.sp ∧ a ∉ bytesAt (k.x 0) 8) :
    cpuContext (execAll swtch (k, mem)).1 = contextAt mem (k.x 1) ∧
      load64 (execAll swtch (k, mem)).2 (k.x 0) = k.sp - 128 ∧
      contextAt (execAll swtch (k, mem)).2 (k.sp - 128) = callContext k ∧
      ∀ a, a ∉ frameOf k.sp → a ∉ bytesAt (k.x 0) 8 →
        (execAll swtch (k, mem)).2 a = mem a := by
  obtain ⟨m, hm, hwords, hsave⟩ := execAll_save k mem
  let m' := store64 m (k.x 0) (k.sp - 128)
  let k' : Cpu := { k.setX 14 (k.sp - 128) with sp := k.x 1 }
  have hstored : ∀ a, a ∉ bytesAt (k.x 0) 8 → m' a = m a := by
    intro a ha
    exact store64_outside _ _ ha
  -- The saves, the switch of the stack, the loads, and the return.
  have hexec : execAll swtch (k, mem) = Instr.exec (execAll (pops contextPairs) (k', m')) .ret := by
    rw [swtch_eq, execAll_append, execAll_append, hsave, execAll_append]
    rfl
  rw [execAll_pops] at hexec
  -- The saves have not touched the frame that is loaded.
  have hloaded : words m' (k.x 1) 16 = words mem (k.x 1) 16 := by
    apply words_congr (by decide)
    intro a ha
    obtain ⟨hframe, hslot⟩ := hnew a ha
    rw [hstored a hslot, hm a hframe]
  have hregs : (regsOf contextPairs).map
      (applyWrites k'.x ((regsOf contextPairs).zip (words m' (k.x 1) 16))) =
        words mem (k.x 1) 16 := by
    have hnodup : (regsOf contextPairs).Nodup := by decide
    have hlen : (regsOf contextPairs).length = (words m' (k.x 1) 16).length := by
      rw [words_length]
      rfl
    rw [map_applyWrites_zip hnodup hlen, hloaded]
  have hsaved : words m' (k.sp - 128) 16 = (regsOf contextPairs).map k.x := by
    rw [← hwords]
    apply words_congr (by decide)
    intro a ha
    exact hstored a (hslot a ha)
  rw [hexec]
  refine ⟨?_, load64_store64_self _ _ _, ?_, ?_⟩
  · rw [contextAt, ← hregs]
    rfl
  · show contextAt m' (k.sp - 128) = callContext k
    have hsp : k.sp - 128 + 128 = k.sp := UInt64.sub_add_cancel _ _
    rw [contextAt, hsaved, hsp]
    rfl
  · intro a hframe hold
    exact (hstored a hold).trans (hm a hframe)

/-- The part between the pushes and the pops. It writes the one word at `old`, and reads no memory.
-/
theorem within_setOld (s : Cpu × Memory) :
    Within (bytesAt (s.1.x 0) 8) ∅ [.movFromSp 14, .str 14 0, .movToSp 1] s := by
  refine ⟨⟨by simp [Instr.stores], by simp [Instr.loads]⟩, ⟨?_, by simp [Instr.loads]⟩,
    ⟨by simp [Instr.stores], by simp [Instr.loads]⟩, trivial⟩
  intro w hw a ha
  have hw0 : w.1 = s.1.x 0 := by
    rw [List.mem_singleton.mp hw]
    rfl
  rw [hw0] at ha
  exact ha

/-- `swtch` writes the caller's context and `*old` and reads the new context. -/
theorem within_swtch (k : Cpu) (mem : Memory) :
    Within (frameOf k.sp ∪ bytesAt (k.x 0) 8) (bytesAt (k.x 1) sizeofContext) swtch (k, mem) := by
  obtain ⟨m, -, -, hsave⟩ := execAll_save k mem
  have hx : (execAll (pushes contextPairs.reverse) (k, mem)).1.x = k.x := by
    rw [pushes_cpu]
  have hset := within_setOld (execAll (pushes contextPairs.reverse) (k, mem))
  have hpops := within_pops { k.setX 14 (k.sp - 128) with sp := k.x 1 }
    (store64 m (k.x 0) (k.sp - 128)) contextPairs
  rw [hx] at hset
  rw [swtch_eq, within_append, within_append, hsave, within_append]
  refine ⟨(within_pushes k mem (by decide)).mono ?_ (Set.empty_subset _),
    hset.mono Set.subset_union_right (Set.empty_subset _),
    hpops.mono (Set.empty_subset _) (Set.Subset.refl _), ?_⟩
  · exact Set.subset_union_left
  · simp [Within, Instr.Within, Instr.stores, Instr.loads]

end Spec

end KernelAarch64.Core
