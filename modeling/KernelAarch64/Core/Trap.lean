import KernelAarch64.Common.Memory
import KernelAarch64.Lib.AArch64
import KernelAarch64.Lib.Steps

/-!
# Traps (`asm/trap.S`, `core/trapframe.h`)

A trap from user mode comes to `trap_entry`, which makes a `Trapframe` on the kernel stack and calls
`trap_global_handler` with its address; `trap_return` takes the registers from the frame and goes
back. Where `SP_EL0` is in the frame, `trap_entry` puts the stack pointer of the kernel.

The two routines are sequences of pushes and pops with a few instructions between them, and the
lemmas of `Lib.AArch64` about these give what they leave (`trapEntry_spec`, `trapReturn_spec`). A
process is then a machine with three kinds of step: the user program does anything, a trap is taken,
and a handler returns. `trap_transparent` is about all its runs.
-/

namespace KernelAarch64.Core

open KernelAarch64.Lib KernelAarch64.Common

/-- `trap_entry`, up to the call of `trap_global_handler`, whose argument is the stack pointer then.
The stack pointer is saved as it is 240 bytes further up, which is that of the kernel. -/
def trapEntry : List Instr :=
  [.stp 29 30, .stp 27 28, .stp 25 26, .stp 23 24, .stp 21 22, .stp 19 20, .stp 17 18, .stp 15 16,
    .stp 13 14, .stp 11 12, .stp 9 10, .stp 7 8, .stp 5 6, .stp 3 4, .stp 1 2,
    .addSp 3 240, .mrsSpsr 2, .mrsElr 1, .stp 1 0, .stp 3 2,
    .movFromSp 0]

/-- `trap_return`, from the end of the handler to `eret`. It is the entry backwards, but for the
stack pointer of the user program, which is taken from the frame. -/
def trapReturn : List Instr :=
  [.ldp 3 2, .ldp 1 0, .msrElr 1, .msrSpsr 2, .msrSpEl0 3,
    .ldp 1 2, .ldp 3 4, .ldp 5 6, .ldp 7 8, .ldp 9 10, .ldp 11 12, .ldp 13 14, .ldp 15 16,
    .ldp 17 18, .ldp 19 20, .ldp 21 22, .ldp 23 24, .ldp 25 26, .ldp 27 28, .ldp 29 30,
    .eret]

/-- `r1` to `r30`, in pairs, as `trap_entry` pushes and `trap_return` pops them. `r0` goes with
`ELR_EL1`. -/
def generalPairs : List (Nat × Nat) :=
  [(1, 2), (3, 4), (5, 6), (7, 8), (9, 10), (11, 12), (13, 14), (15, 16), (17, 18), (19, 20),
    (21, 22), (23, 24), (25, 26), (27, 28), (29, 30)]

/-- The pairs that hold `SP_EL0`, `SPSR_EL1`, `ELR_EL1` and `r0`. -/
def systemPairs : List (Nat × Nat) := [(3, 2), (1, 0)]

/-- The pushes of `trap_entry`, put together. -/
theorem trapEntry_eq : trapEntry = pushes generalPairs.reverse ++
    ([.addSp 3 240, .mrsSpsr 2, .mrsElr 1] ++ (pushes systemPairs.reverse ++ [.movFromSp 0])) := rfl

/-- The pops of `trap_return`, put together. -/
theorem trapReturn_eq : trapReturn = pops systemPairs ++
    ([.msrElr 1, .msrSpsr 2, .msrSpEl0 3] ++ (pops generalPairs ++ [.eret])) := rfl

/-- `Trapframe`, in the order in which it lies in memory: three system registers, and the 31 general
ones. -/
structure Trapframe where
  SP_EL0 : UInt64
  SPSR_EL1 : UInt64
  ELR_EL1 : UInt64
  /-- `r0` to `r30` -/
  r : List UInt64
  deriving DecidableEq

/-- `sizeof(Trapframe)` -/
def sizeofTrapframe : Nat := 272

/-- `*frame`, the 34 words at an address read as a frame: the three system registers, and then the
general ones from `r0` on. -/
def trapframeAt (mem : Memory) (frame : UInt64) : Trapframe where
  SP_EL0 := load64 mem frame
  SPSR_EL1 := load64 mem (frame + 8)
  ELR_EL1 := load64 mem (frame + 16)
  r := words mem (frame + 24) 31

/-- The registers `x0` to `x30`. -/
def generalRegs (k : Cpu) : List UInt64 := (List.range 31).map k.x

/-- The words of a frame: the system registers, `r0` and the other registers. -/
theorem trapframeAt_eq (mem : Memory) (p : UInt64) : trapframeAt mem p =
    ⟨load64 mem p, load64 mem (p + 8), load64 mem (p + 16),
      load64 mem (p + 24) :: words mem (p + 32) 30⟩ := by
  have h32 : p + 24 + 8 = p + 32 := by grind
  rw [← h32]
  rfl

/-- The words of a frame in their order. -/
theorem words_frame (mem : Memory) (p : UInt64) : words mem p 34 =
    [load64 mem p, load64 mem (p + 8), load64 mem (p + 16), load64 mem (p + 24)] ++
      words mem (p + 32) 30 := by
  have h16 : p + 8 + 8 = p + 16 := by grind
  have h24 : p + 16 + 8 = p + 24 := by grind
  show words mem p (4 + 30) = _
  rw [words_append, words, words, words, words, words, h16, h24]
  rfl

theorem trapframeAt_of_words {mem : Memory} {p : UInt64} {sp spsr elr r0 : UInt64}
    {r : List UInt64} (h : words mem p 34 = [sp, spsr, elr, r0] ++ r) :
    trapframeAt mem p = ⟨sp, spsr, elr, r0 :: r⟩ := by
  rw [words_frame] at h
  simp only [List.cons_append, List.nil_append, List.cons.injEq] at h
  rw [trapframeAt_eq, h.1, h.2.1, h.2.2.1, h.2.2.2.1, h.2.2.2.2]

/-- A trap frame depends on its own bytes only. -/
theorem trapframeAt_congr {mem mem' : Memory} {p : UInt64}
    (h : ∀ a ∈ bytesAt p sizeofTrapframe, mem a = mem' a) :
    trapframeAt mem p = trapframeAt mem' p := by
  have hwords : words mem p 34 = words mem' p 34 := words_congr (by decide) h
  rw [words_frame mem'] at hwords
  rw [trapframeAt_of_words hwords, trapframeAt_eq]

/-- The registers in the order of the frame. -/
theorem range_eq : List.range 31 = 0 :: regsOf generalPairs := rfl

/-- The system registers are taken from the frame: the four words that are popped first go to
`SP_EL0`, `SPSR_EL1`, `ELR_EL1` and `x0`. -/
theorem execAll_restore (k : Cpu) (mem : Memory) : ∃ k' : Cpu,
    execAll [.msrElr 1, .msrSpsr 2, .msrSpEl0 3] (execAll (pops systemPairs) (k, mem)) =
      (k', mem) ∧ k'.sp = k.sp + 32 ∧ k'.spEl0 = load64 mem k.sp ∧
      k'.spsrEl1 = load64 mem (k.sp + 8) ∧ k'.elrEl1 = load64 mem (k.sp + 16) ∧
      k'.x 0 = load64 mem (k.sp + 24) := by
  have h16 : k.sp + 8 + 8 = k.sp + 16 := by grind
  have h24 : k.sp + 16 + 8 = k.sp + 24 := by grind
  refine ⟨(execAll [.msrElr 1, .msrSpsr 2, .msrSpEl0 3]
    (execAll (pops systemPairs) (k, mem))).1, ?_, ?_, ?_, ?_, ?_, ?_⟩
  · rw [execAll_pops]
    rfl
  all_goals
    rw [execAll_pops]
    simp [systemPairs, words, h16, h24, Instr.exec, Instr.next]

/-- `trap_return` goes back to user mode with what is in the frame, whoever has written it. The
memory is not changed, and the frame is off the stack. -/
theorem trapReturn_spec (k : Cpu) (mem : Memory) :
    (execAll trapReturn (k, mem)).2 = mem ∧
      (execAll trapReturn (k, mem)).1.sp = k.sp + 272 ∧
      (execAll trapReturn (k, mem)).1.spEl0 = (trapframeAt mem k.sp).SP_EL0 ∧
      (execAll trapReturn (k, mem)).1.pstate = (trapframeAt mem k.sp).SPSR_EL1 ∧
      (execAll trapReturn (k, mem)).1.pc = (trapframeAt mem k.sp).ELR_EL1 ∧
      generalRegs (execAll trapReturn (k, mem)).1 = (trapframeAt mem k.sp).r := by
  obtain ⟨k', hrestore, hsp, hspEl0, hspsr, helr, hx0⟩ := execAll_restore k mem
  let x := applyWrites k'.x ((regsOf generalPairs).zip (words mem k'.sp 30))
  have hexec : execAll trapReturn (k, mem) =
      ({ k' with
          x := x, sp := k'.sp + 240, pc := k'.elrEl1, pstate := k'.spsrEl1 }, mem) := by
    rw [trapReturn_eq, execAll_append, execAll_append, hrestore, execAll_append, execAll_pops]
    rfl
  have hgeneral : (regsOf generalPairs).map x = words mem k'.sp 30 := by
    have hnodup : (regsOf generalPairs).Nodup := by decide
    have hlen : (regsOf generalPairs).length = (words mem k'.sp 30).length := by
      rw [words_length]
      rfl
    exact map_applyWrites_zip hnodup hlen _
  have hzero : x 0 = k'.x 0 := by
    apply applyWrites_of_notMem
    intro hmem
    obtain ⟨w, hw, hw0⟩ := List.mem_map.mp hmem
    have hin : w.1 ∈ regsOf generalPairs := (List.of_mem_zip hw).1
    rw [hw0] at hin
    exact absurd hin (by decide)
  rw [hexec, trapframeAt_eq]
  refine ⟨rfl, ?_, hspEl0, hspsr, helr, ?_⟩
  · show k'.sp + 240 = k.sp + 272
    rw [hsp]
    grind
  · show (List.range 31).map x = _
    rw [range_eq, List.map_cons, hgeneral, hzero, hx0, hsp]

/-- What `trap_entry` leaves: the frame, and its address for `trap_global_handler`. Nothing but the
bytes of the frame is written. -/
theorem trapEntry_spec (k : Cpu) (mem : Memory) :
    (execAll trapEntry (k, mem)).1.sp = k.sp - 272 ∧
      (execAll trapEntry (k, mem)).1.x 0 = k.sp - 272 ∧
      trapframeAt (execAll trapEntry (k, mem)).2 (k.sp - 272) =
        ⟨k.sp, k.spsrEl1, k.elrEl1, generalRegs k⟩ ∧
      ∀ a ∉ bytesAt (k.sp - 272) sizeofTrapframe, (execAll trapEntry (k, mem)).2 a = mem a := by
  have hlen : 16 * generalPairs.reverse.length < 2 ^ 64 := by decide
  have hlen' : 16 * systemPairs.reverse.length < 2 ^ 64 := by decide
  obtain ⟨m, hpush, hgeneral, hkept⟩ := execAll_pushes k mem hlen
  -- The registers that `trap_entry` uses are saved by then.
  let k' : Cpu := { ((k.setX 3 (k.sp - 240 + 240)).setX 2 k.spsrEl1).setX 1 k.elrEl1 with
    sp := k.sp - 240 }
  obtain ⟨m', hpush', hsystem, hkept'⟩ := execAll_pushes k' m hlen'
  have hmid : execAll [.addSp 3 240, .mrsSpsr 2, .mrsElr 1] ({ k with sp := k.sp - 240 }, m) =
      (k', m) := rfl
  have hexec : execAll trapEntry (k, mem) =
      ({ k'.setX 0 (k.sp - 240 - 32) with sp := k.sp - 240 - 32 }, m') := by
    rw [trapEntry_eq, execAll_append, hpush, execAll_append]
    show execAll _ (execAll _ ({ k with sp := k.sp - 240 }, m)) = _
    rw [hmid, execAll_append, hpush']
    rfl
  have hsp : k.sp - 240 - 32 = k.sp - 272 := by grind
  have hmem : ∀ a, a ∉ bytesAt (k.sp - 240 - 32) 32 → m' a = m a := hkept'
  have hhigh : words m' (k.sp - 272 + 32) 30 = (regsOf generalPairs).map k.x := by
    have hbase : k.sp - 272 + 32 = k.sp - 240 := by grind
    rw [hbase]
    refine (words_congr (by decide) ?_).trans hgeneral
    intro a ha
    apply hmem
    exact notMem_bytesAt_below (by decide) ha
  have hlow : words m' (k.sp - 272) 4 = [k.sp, k.spsrEl1, k.elrEl1, k.x 0] := by
    have hx3 : k.sp - 240 + 240 = k.sp := UInt64.sub_add_cancel _ _
    rw [← hsp]
    refine hsystem.trans ?_
    simp [systemPairs, k', Cpu.setX, hx3]
  have hwords : words m' (k.sp - 272) 34 = [k.sp, k.spsrEl1, k.elrEl1, k.x 0] ++
      (regsOf generalPairs).map k.x := by
    show words m' (k.sp - 272) (4 + 30) = _
    rw [words_append, hlow]
    exact congrArg _ hhigh
  rw [hexec, hsp]
  refine ⟨rfl, rfl, trapframeAt_of_words hwords, ?_⟩
  intro a ha
  have hlow' : bytesAt (k.sp - 240 - 32) 32 ⊆ bytesAt (k.sp - 272) sizeofTrapframe := by
    have hbase : k.sp - 240 - 32 = k.sp - 272 + 0 := by grind
    rw [hbase]
    exact bytesAt_add_subset (by decide)
  have hhigh' : bytesAt (k.sp - 240) 240 ⊆ bytesAt (k.sp - 272) sizeofTrapframe := by
    have hbase : k.sp - 240 = k.sp - 272 + 32 := by grind
    rw [hbase]
    exact bytesAt_add_subset (by decide)
  exact (hmem a fun h => ha (hlow' h)).trans (hkept a fun h => ha (hhigh' h))

/-! ## From user mode and back

What a user program sees of itself is in the registers while it runs, and in the frame while the
kernel has it. The frame is the same memory from the trap to the return, which is what a handler has
to keep. -/

/-- What the processor does at a trap from user mode: it goes on at `vector`, in EL1 with interrupts
masked. -/
def exceptionEntry (vector : UInt64) (k : Cpu) : Cpu :=
  { k with elrEl1 := k.pc, spsrEl1 := k.pstate, pc := vector, pstate := 0x3c5 }

/-- What a user program sees of the processor, but for the stack pointer, which `trap_entry` does
not save. -/
structure UserState where
  x : List UInt64
  pc : UInt64
  pstate : UInt64
  deriving DecidableEq

/-- What it sees while it runs. -/
def userState (k : Cpu) : UserState := ⟨generalRegs k, k.pc, k.pstate⟩

/-- What there is of a process on a CPU: its user program runs, or the kernel handles its trap. -/
structure TrapMachine where
  cpu : Cpu
  mem : Memory
  inKernel : Bool

/-- What can happen to a process: the user program runs, a trap is taken, or the handler is over and
`trap_return` runs. -/
inductive TrapAct where
  /-- The user program does anything: registers, counter, state and its stack pointer. -/
  | user (x : Nat → UInt64) (pc pstate spEl0 : UInt64) (mem : Memory)
  /-- A trap. -/
  | trap (vector : UInt64)
  /-- `trap_global_handler` returns to `trap_return` with the registers `k`. -/
  | handled (k : Cpu) (mem : Memory)

namespace TrapMachine

/-- One of these. A user program does not run while the kernel has the process. -/
def step (s : TrapMachine) : TrapAct → Option TrapMachine
  | .user x pc pstate spEl0 mem =>
    if s.inKernel then none
    else some { s with
      cpu := { s.cpu with x := x, pc := pc, pstate := pstate, spEl0 := spEl0 }
      mem := mem }
  | .trap vector =>
    if s.inKernel then none
    else
      let r := execAll trapEntry (exceptionEntry vector s.cpu, s.mem)
      some ⟨r.1, r.2, true⟩
  | .handled k mem =>
    if s.inKernel then
      let r := execAll trapReturn (k, mem)
      some ⟨r.1, r.2, false⟩
    else none

/-- A handler returns with the stack pointer that it was called with, and keeps the frame. -/
def Allowed (s : TrapMachine) : TrapAct → Prop
  | .handled k mem => k.sp = s.cpu.sp ∧ ∀ a ∈ bytesAt s.cpu.sp sizeofTrapframe, mem a = s.mem a
  | _ => True

/-- What a process has in memory or in its registers for user mode: the frame while the kernel has
the process, and the registers while it runs. -/
def user (s : TrapMachine) : UserState :=
  if s.inKernel then
    let frame := trapframeAt s.mem s.cpu.sp
    ⟨frame.r, frame.ELR_EL1, frame.SPSR_EL1⟩
  else userState s.cpu

/-- The kernel stack pointer of user mode. -/
def stackTop (s : TrapMachine) : UInt64 := if s.inKernel then s.cpu.sp + 272 else s.cpu.sp

/-- In the kernel, the frame says that the user's stack pointer is the kernel's. -/
def FrameInv (s : TrapMachine) : Prop :=
  s.inKernel = true → (trapframeAt s.mem s.cpu.sp).SP_EL0 = s.stackTop

variable {s s' s₀ : TrapMachine} {a : TrapAct}

/-- A step of the user program leaves the stack of the kernel alone. -/
theorem step_user {x : Nat → UInt64} {pc pstate spEl0 : UInt64} {mem : Memory}
    (h : s.step (.user x pc pstate spEl0 mem) = some s') :
    s.inKernel = false ∧ s'.inKernel = false ∧ s'.stackTop = s.stackTop := by
  cases hk : s.inKernel with
  | true => simp [step, hk] at h
  | false =>
    simp only [step, hk, Bool.false_eq_true, if_false, Option.some.injEq] at h
    subst h
    exact ⟨rfl, rfl, by simp [stackTop, hk]⟩

/-- A trap saves everything a user program sees: its registers, its program counter, its state and
its stack pointer are in the frame, from which `user` reads them. -/
theorem step_trap {vector : UInt64} (h : s.step (.trap vector) = some s') :
    s.inKernel = false ∧ s'.inKernel = true ∧ s'.stackTop = s.stackTop ∧ s'.user = s.user ∧
      s'.FrameInv := by
  cases hk : s.inKernel with
  | true => simp [step, hk] at h
  | false =>
    simp only [step, hk, Bool.false_eq_true, if_false, Option.some.injEq] at h
    subst h
    obtain ⟨hsp, -, hframe, -⟩ := trapEntry_spec (exceptionEntry vector s.cpu) s.mem
    have htop : (execAll trapEntry (exceptionEntry vector s.cpu, s.mem)).1.sp + 272 = s.cpu.sp := by
      rw [hsp]
      exact UInt64.sub_add_cancel _ _
    rw [← hsp] at hframe
    refine ⟨rfl, rfl, ?_, ?_, ?_⟩
    · simpa [stackTop, hk] using htop
    · simp only [user, hk, if_true, Bool.false_eq_true, if_false, hframe]
      rfl
    · intro _
      simp only [stackTop, if_true, hframe, htop]
      rfl

/-- A return from a trap gives it back, from whatever the frame holds when the handler is over.
Between the trap and the return the handler leaves the frame alone. -/
theorem step_handled {k : Cpu} {mem : Memory} (hok : s.Allowed (.handled k mem))
    (h : s.step (.handled k mem) = some s') :
    s.inKernel = true ∧ s'.inKernel = false ∧ s'.stackTop = s.stackTop ∧ s'.user = s.user ∧
      s'.cpu.spEl0 = (trapframeAt s.mem s.cpu.sp).SP_EL0 := by
  cases hk : s.inKernel with
  | false => simp [step, hk] at h
  | true =>
    simp only [step, hk, if_true, Option.some.injEq] at h
    subst h
    obtain ⟨-, hsp, hspEl0, hpstate, hpc, hx⟩ := trapReturn_spec k mem
    have hframe : trapframeAt mem k.sp = trapframeAt s.mem s.cpu.sp := by
      rw [hok.1]
      exact trapframeAt_congr hok.2
    rw [hframe] at hspEl0 hpstate hpc hx
    refine ⟨rfl, rfl, ?_, ?_, hspEl0⟩
    · simp only [stackTop, hk, if_true, Bool.false_eq_true, if_false, hsp, hok.1]
    · simp only [user, hk, if_true, Bool.false_eq_true, if_false, userState, hpstate, hpc, hx]

/-- The steps in which handlers keep to what is allowed. -/
def Run : TrapMachine → TrapMachine → Prop := Steps (fun s a s' => s.step a = some s') Allowed

/-- The same, without steps of the user program, so that what the program sees can only be changed
by the kernel. -/
def RunKernel : TrapMachine → TrapMachine → Prop :=
  Steps (fun s a s' => s.step a = some s') fun s a =>
    s.Allowed a ∧ ∀ x pc pstate spEl0 mem, a ≠ .user x pc pstate spEl0 mem

/-- The invariant, and the top of the stack, which is the same in every state of a run. One case for
each of the three acts. -/
theorem step_frameInv (hok : s.Allowed a) (h : s.step a = some s') :
    s'.FrameInv ∧ s'.stackTop = s.stackTop := by
  cases a with
  | user x pc pstate spEl0 mem =>
    obtain ⟨-, hk, htop⟩ := step_user h
    exact ⟨fun hk' => (nomatch hk.symm.trans hk'), htop⟩
  | trap vector =>
    obtain ⟨-, -, htop, -, hframe⟩ := step_trap h
    exact ⟨hframe, htop⟩
  | handled k mem =>
    obtain ⟨-, hk, htop, -⟩ := step_handled hok h
    exact ⟨fun hk' => (nomatch hk.symm.trans hk'), htop⟩

/-- The same along a run. -/
theorem Run.frameInv (hrun : Run s₀ s) (h₀ : s₀.inKernel = false) :
    s.FrameInv ∧ s.stackTop = s₀.cpu.sp := by
  apply hrun.invariant (I := fun s => s.FrameInv ∧ s.stackTop = s₀.cpu.sp)
  · exact ⟨fun hk => (nomatch h₀.symm.trans hk), by simp [stackTop, h₀]⟩
  · intro u v a hu hok hstep
    obtain ⟨hframe, htop⟩ := step_frameInv hok hstep
    exact ⟨hframe, htop.trans hu.2⟩

/-- Without a step of the user program, nothing changes for it, neither when a trap is taken nor
when it returns. -/
theorem step_kernel (hs : s.FrameInv) (hok : s.Allowed a)
    (hnot : ∀ x pc pstate spEl0 mem, a ≠ .user x pc pstate spEl0 mem) (h : s.step a = some s') :
    s'.user = s.user ∧ (s'.inKernel = false → s'.cpu.spEl0 = s'.stackTop) := by
  cases a with
  | user x pc pstate spEl0 mem => exact absurd rfl (hnot x pc pstate spEl0 mem)
  | trap vector =>
    obtain ⟨-, hk, -, huser, -⟩ := step_trap h
    exact ⟨huser, fun hk' => (nomatch hk.symm.trans hk')⟩
  | handled k mem =>
    obtain ⟨hk, -, htop, huser, hspEl0⟩ := step_handled hok h
    refine ⟨huser, fun _ => ?_⟩
    rw [hspEl0, hs hk, htop]

/-- Whatever the user programs and the handlers have done before: from a trap on, until a user
program runs again, the registers `x0` to `x30`, the counter and the state of the program are kept,
and the kernel stack is back where it was when the process was first in user mode. The stack pointer
of the program is the kernel's from then on. -/
theorem trap_transparent (h₀ : s₀.inKernel = false) (hrun : Run s₀ s) (hkernel : RunKernel s s') :
    s'.user = s.user ∧ s'.stackTop = s₀.cpu.sp ∧
      (s.inKernel = true → s'.inKernel = false → s'.cpu.spEl0 = s₀.cpu.sp) := by
  obtain ⟨hframe, htop⟩ := hrun.frameInv h₀
  have hinv : s'.FrameInv ∧ s'.stackTop = s₀.cpu.sp ∧ s'.user = s.user ∧
      (s.inKernel = true → s'.inKernel = false → s'.cpu.spEl0 = s₀.cpu.sp) := by
    apply hkernel.invariant (I := fun s' => s'.FrameInv ∧ s'.stackTop = s₀.cpu.sp ∧
      s'.user = s.user ∧ (s.inKernel = true → s'.inKernel = false → s'.cpu.spEl0 = s₀.cpu.sp))
    · exact ⟨hframe, htop, rfl, fun hk hk' => (nomatch hk.symm.trans hk')⟩
    · intro u v a hu hok hstep
      obtain ⟨huframe, hutop, huuser, -⟩ := hu
      obtain ⟨hvframe, hvtop⟩ := step_frameInv hok.1 hstep
      obtain ⟨hvuser, hvsp⟩ := step_kernel huframe hok.1 hok.2 hstep
      refine ⟨hvframe, hvtop.trans hutop, hvuser.trans huuser, fun _ hk => ?_⟩
      rw [hvsp hk, hvtop, hutop]
  exact ⟨hinv.2.2.1, hinv.2.1, hinv.2.2.2⟩

/-- A process at a trap with `x5 = 5`, and its stack of the kernel at `0x5000`. -/
def oneTrap : TrapMachine where
  cpu :=
    { x := .ofNat, sp := 0x5000, spEl0 := 0x9000, elrEl1 := 0, spsrEl1 := 0, pc := 0x40, pstate := 0 }
  mem _ := 0
  inKernel := false

/-- A trap and the return from it, on a stack whose top is `0x5000`. The second state has what the
first one saw. -/
theorem trap_transparent_one : ∃ s s' : TrapMachine, Run oneTrap s ∧ s.inKernel = true ∧
    s'.inKernel = false ∧ s'.user = s.user ∧ s'.stackTop = 0x5000 ∧ s'.cpu.spEl0 = 0x5000 := by
  let s : TrapMachine := ⟨(execAll trapEntry (exceptionEntry 0x400 oneTrap.cpu, oneTrap.mem)).1,
    (execAll trapEntry (exceptionEntry 0x400 oneTrap.cpu, oneTrap.mem)).2, true⟩
  let s' : TrapMachine := ⟨(execAll trapReturn (s.cpu, s.mem)).1,
    (execAll trapReturn (s.cpu, s.mem)).2, false⟩
  have hrun : Run oneTrap s := (Steps.refl _).tail (a := .trap 0x400) trivial rfl
  have hback : RunKernel s s' := by
    apply (Steps.refl _).tail (a := .handled s.cpu s.mem) _ rfl
    exact ⟨⟨rfl, fun a _ => rfl⟩, fun x pc pstate spEl0 mem h => nomatch h⟩
  obtain ⟨huser, htop, hsp⟩ := trap_transparent rfl hrun hback
  exact ⟨s, s', hrun, rfl, rfl, huser, htop, hsp rfl rfl⟩

end TrapMachine

end KernelAarch64.Core
