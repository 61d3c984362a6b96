import KernelAarch64.Common.Format.Buffer
import KernelAarch64.Common.SpinLock
import KernelAarch64.Lib.Steps
import KernelAarch64.Lib.Token

/-!
# Messages on the console (`core/console.c`, `driver/uart.c`)

`puts`, `vprintf` and `_panic` print under `ctx.lock`, which also guards the buffer of `_print_int`
and `panicked_flag`. A CPU that gets the lock after a panic gives it back and stops.

A step is one access to shared data by one CPU.

The main result is `console_messages`. `Inv` is the invariant; its part about `ctx.lock` is the same
as for any lock, that one CPU at most is in the section (`Token`), and its part about the output
says that what the UART has got are the messages of the log, the last one up to where its CPU is.
There is a lemma for each place that a CPU can be at, from `Inv.acquireStep` to `Inv.unlockStep`.
-/

namespace KernelAarch64.Core

open KernelAarch64.Lib KernelAarch64.Common

/-- A call that prints. The strings have no terminator. `printf` is `vprintf` with its own
arguments, and the file name of a panic is an address like that of any other `%s`. -/
inductive ConsoleCall where
  | puts (str : List UInt8)
  | vprintf (fmt : List UInt8) (arg : List UInt64)
  /-- `_panic(file, line, fmt, ..)`; `file` is an address. -/
  | panic (file line : UInt64) (fmt : List UInt8) (arg : List UInt64)
  deriving Repr, DecidableEq

/-- `NEWLINE` -/
def newline : UInt8 := '\n'.toUInt8

/-- `PANIC_BAR_CHAR`, `PANIC_BAR_LENGTH` times. -/
def panicBar : List UInt8 := List.replicate 32 '='.toUInt8

/-- `"KERNEL PANIC at CPU %zu:\n"` -/
def panicAt : List UInt8 :=
  chars ['K', 'E', 'R', 'N', 'E', 'L', ' ', 'P', 'A', 'N', 'I', 'C', ' ', 'a', 't', ' ', 'C', 'P',
    'U', ' ', '%', 'z', 'u', ':', '\n']

/-- `"file: %s\n"` -/
def panicFile : List UInt8 := chars ['f', 'i', 'l', 'e', ':', ' ', '%', 's', '\n']

/-- `"line: %zu\n"` -/
def panicLine : List UInt8 := chars ['l', 'i', 'n', 'e', ':', ' ', '%', 'z', 'u', '\n']

namespace ConsoleCall

def isPanic : ConsoleCall → Bool
  | panic .. => true
  | _ => false

variable (mem : UInt64 → Option (List UInt8))

/-- What the call prints on CPU `cpu`, as a whole. This is what a message is; how it gets to the
UART is `ops`. -/
def text (cpu : UInt64) : ConsoleCall → Except FormatFault (List UInt8)
  | puts str => .ok (str ++ [newline])
  | vprintf fmt arg => do
    let r ← vformat mem (fmt ++ [0]) arg
    return r.1
  | panic file line fmt arg => do
    let r₁ ← vformat mem (panicAt ++ [0]) [cpu]
    let r₂ ← vformat mem (panicFile ++ [0]) [file]
    let r₃ ← vformat mem (panicLine ++ [0]) [line]
    let r₄ ← vformat mem (fmt ++ [0]) arg
    return panicBar ++ [newline] ++ (r₁.1 ++ (r₂.1 ++ (r₃.1 ++ (r₄.1 ++ [newline]))))

/-- How it does so, from `check_panicked` to `release_spinlock`: the characters that are put and the
accesses to the buffer, in the order of the source. -/
def ops (cpu : UInt64) : ConsoleCall → Except FormatFault (List FormatOp)
  | puts str => .ok (str.map .put ++ [.put newline])
  | vprintf fmt arg => vformatOps mem fmt arg
  | panic file line fmt arg => do
    let r₁ ← vformatOps mem panicAt [cpu]
    let r₂ ← vformatOps mem panicFile [file]
    let r₃ ← vformatOps mem panicLine [line]
    let r₄ ← vformatOps mem fmt arg
    return (panicBar ++ [newline]).map .put ++ (r₁ ++ (r₂ ++ (r₃ ++ (r₄ ++ [.put newline]))))

/-- A format string ends at its terminator, so that no byte of it is one. The same holds of the
string that `puts` is called with. -/
def NoNul : ConsoleCall → Prop
  | puts str => 0 ∉ str
  | vprintf fmt _ | panic _ _ fmt _ => 0 ∉ fmt

variable {mem} {cpu : UInt64} {call : ConsoleCall} {t : List UInt8}

/-- The steps of a call put out its text, whatever is in the buffer when they begin. This is the
fact about calls that run alone; the invariant says that those with the lock do. -/
theorem ops_writes (hnul : call.NoNul) (h : call.text mem cpu = .ok t) :
    ∃ os, call.ops mem cpu = .ok os ∧ Writes os t := by
  cases call with
  | puts str =>
    cases h
    exact ⟨_, rfl, (writes_put str).append (writes_put [newline])⟩
  | vprintf fmt arg =>
    obtain ⟨r, hr, hret⟩ := formatBind_ok h
    cases hret
    exact vformatOps_writes hnul hr
  | panic file line fmt arg =>
    obtain ⟨r₁, hr₁, h⟩ := formatBind_ok h
    obtain ⟨r₂, hr₂, h⟩ := formatBind_ok h
    obtain ⟨r₃, hr₃, h⟩ := formatBind_ok h
    obtain ⟨r₄, hr₄, hret⟩ := formatBind_ok h
    cases hret
    obtain ⟨os₁, hos₁, hw₁⟩ := vformatOps_writes (by decide) hr₁
    obtain ⟨os₂, hos₂, hw₂⟩ := vformatOps_writes (by decide) hr₂
    obtain ⟨os₃, hos₃, hw₃⟩ := vformatOps_writes (by decide) hr₃
    obtain ⟨os₄, hos₄, hw₄⟩ := vformatOps_writes hnul hr₄
    refine ⟨(panicBar ++ [newline]).map .put ++ (os₁ ++ (os₂ ++ (os₃ ++ (os₄ ++ [.put newline])))),
      ?_, (writes_put _).append (hw₁.append (hw₂.append (hw₃.append
        (hw₄.append (writes_put [newline])))))⟩
    simp only [ops, hos₁, hos₂, hos₃, hos₄]
    rfl

end ConsoleCall

/-- `uart_put_char(c)`: what is written to `AUX_MU_IO_REG`. -/
def uartPutChar (c : UInt8) : List UInt8 := if c = newline then [c, '\r'.toUInt8] else [c]

/-! ## The CPUs

A call goes through its places one step at a time: it takes the lock, looks at `panicked_flag`,
prints byte by byte, and gives the lock back. A CPU that finds a panic stops with the lock released.
-/

/-- Where a CPU is in a call. `some call` at a release means that the call returns after it, and
`none` that `check_panicked` has found a panic. -/
inductive ConsolePc where
  /-- Somewhere else. -/
  | ready
  /-- `acquire_spinlock` at the check that the CPU has not got the lock, ... -/
  | acquire (call : ConsoleCall)
  /-- ... at `__atomic_test_and_set(&lock->locked)`, ... -/
  | spin (call : ConsoleCall)
  /-- ... and at `lock->cpu = thiscpu()`. -/
  | own (call : ConsoleCall)
  /-- At the look at `panicked_flag`. -/
  | check (call : ConsoleCall)
  /-- At `panicked_flag = true`. -/
  | mark (call : ConsoleCall)
  /-- In the call, with `ops` still to do. -/
  | print (call : ConsoleCall) (ops : List FormatOp)
  /-- `release_spinlock` at its check and `lock->cpu = NULL`, ... -/
  | release (call : Option ConsoleCall)
  /-- ... and at `__atomic_clear(&lock->locked)`. -/
  | unlock (call : Option ConsoleCall)
  /-- In `no_return`. -/
  | stopped
  /-- In the `PANIC` of `acquire_spinlock` or `release_spinlock`. -/
  | fault
  deriving Repr, DecidableEq

/-- The state of the console and of the CPUs that use it. The last three fields are ghost state:
what has been printed, which calls were let through, and which are over. -/
structure ConsoleState where
  lock : SpinLock
  panicked : Bool
  /-- The `buf` of `_print_int`. -/
  buf : Nat → UInt8
  pc : Nat → ConsolePc
  /-- What the UART has got so far. -/
  out : List UInt8
  /-- The calls that were let through by `check_panicked`, with their CPUs. -/
  log : List (Nat × ConsoleCall)
  /-- The calls of each CPU that are over. -/
  done : Nat → List ConsoleCall

/-- What happens next: a CPU that prints nothing calls a function, or one goes on by one access to
shared data. -/
inductive ConsoleAct where
  /-- CPU `c` calls a function. -/
  | call (c : Nat) (call : ConsoleCall)
  /-- CPU `c` goes on. -/
  | go (c : Nat)
  deriving Repr, DecidableEq

namespace ConsoleState

def setPc (s : ConsoleState) (c : Nat) (pc : ConsolePc) : ConsoleState :=
  { s with pc := Function.update s.pc c pc }

variable (mem : UInt64 → Option (List UInt8))

/-- The next step of CPU `c`: one access to the lock, to `panicked_flag`, to the buffer or to the
UART. A CPU that spins stays where it is. -/
def go (s : ConsoleState) (c : Nat) : Option ConsoleState :=
  match s.pc c with
  | .ready | .stopped | .fault => none
  | .acquire call => some (s.setPc c (if s.lock.Holding c then .fault else .spin call))
  | .spin call =>
    if s.lock.locked then some s
    else some ({ s with lock := { s.lock with locked := true } }.setPc c (.own call))
  | .own call => some ({ s with lock := { s.lock with cpu := some c } }.setPc c (.check call))
  | .check call =>
    if s.panicked then some (s.setPc c (.release none))
    else
      let s := { s with log := s.log ++ [(c, call)] }
      if call.isPanic then some (s.setPc c (.mark call))
      else
        match call.ops mem (.ofNat c) with
        | .ok ops => some (s.setPc c (.print call ops))
        | .error _ => none
  | .mark call =>
    match call.ops mem (.ofNat c) with
    | .ok ops => some ({ s with panicked := true }.setPc c (.print call ops))
    | .error _ => none
  | .print call [] => some (s.setPc c (.release (some call)))
  | .print call (op :: ops) =>
    some ({ s with
      buf := op.buf s.buf
      out := s.out ++ (op.out s.buf).flatMap uartPutChar }.setPc c (.print call ops))
  | .release call =>
    if s.lock.Holding c then
      some ({ s with lock := { s.lock with cpu := none } }.setPc c (.unlock call))
    else some (s.setPc c .fault)
  | .unlock none =>
    some ({ s with lock := { s.lock with locked := false } }.setPc c .stopped)
  | .unlock (some call) =>
    some ({ s with
      lock := { s.lock with locked := false }
      done := Function.update s.done c (s.done c ++ [call]) }.setPc c
        (if call.isPanic then .stopped else .ready))

/-- One act of one CPU: to call a function of the console if it is in none, or to go on with the
call it is in. -/
def step (s : ConsoleState) : ConsoleAct → Option ConsoleState
  | .call c call =>
    match s.pc c with
    | .ready => some (s.setPc c (.acquire call))
    | _ => none
  | .go c => s.go mem c

/-- The arguments of a call are those of its format string: it prints something on this CPU, without
a fault of the parser. -/
def Allowed (_ : ConsoleState) : ConsoleAct → Prop
  | .call c call => call.NoNul ∧ ∃ t, call.text mem (.ofNat c) = .ok t
  | .go _ => True

end ConsoleState

/-! ## The invariant

The log has the calls that were let through, in the order of the lock. -/

namespace ConsolePc

/-- `ctx.lock.locked` is the CPU's doing, from the exchange that took it to the store that clears
it. -/
def InSection : ConsolePc → Prop
  | own _ | check _ | mark _ | print .. | release _ | unlock _ => True
  | _ => False

/-- `ctx.lock.cpu` is the CPU. It is written after the lock is taken and cleared before the lock is
released. -/
def IsOwner : ConsolePc → Prop
  | check _ | mark _ | print .. | release _ => True
  | _ => False

/-- The call has passed the check, and its message is not all out: the flag of a panic is about to
be set, or the bytes are being put out. -/
def Printing : ConsolePc → Prop
  | mark _ | print .. => True
  | _ => False

/-- A call that `check_panicked` has not seen yet, from its entry to the check behind the lock -/
def waiting : ConsolePc → Option ConsoleCall
  | acquire call | spin call | own call | check call => some call
  | _ => none

/-- A call that is let through and not over: it passed the check, and its bytes are being put out or
all out. -/
def current : ConsolePc → List ConsoleCall
  | mark call | print call _ | release (some call) | unlock (some call) => [call]
  | _ => []

theorem Printing.isOwner {pc : ConsolePc} (h : pc.Printing) : pc.IsOwner := by
  cases pc <;> first | exact h | exact trivial

/-- Who has the lock is in the section. -/
theorem IsOwner.inSection {pc : ConsolePc} (h : pc.IsOwner) : pc.InSection := by
  cases pc <;> first | exact h | exact trivial

end ConsolePc

/-- The arguments of a call are those of its format string. -/
def ConsoleCall.Fits (mem : UInt64 → Option (List UInt8)) (c : Nat) (call : ConsoleCall) : Prop :=
  call.NoNul ∧ ∃ t, call.text mem (.ofNat c) = .ok t

/-- What the UART gets for a call on CPU `c`. -/
def wire (mem : UInt64 → Option (List UInt8)) (c : Nat) (call : ConsoleCall) : List UInt8 :=
  ((call.text mem (.ofNat c)).toOption.getD []).flatMap uartPutChar

/-- What the UART gets for calls one after the other. -/
def wires (mem : UInt64 → Option (List UInt8)) (log : List (Nat × ConsoleCall)) : List UInt8 :=
  log.flatMap fun e => wire mem e.1 e.2

/-- The calls of CPU `c`. -/
def callsOf (log : List (Nat × ConsoleCall)) (c : Nat) : List ConsoleCall :=
  (log.filter fun e => e.1 = c).map Prod.snd

namespace ConsoleState

/-- The call that CPU `c` makes is the last of the log, and `o` of it is out. All others of the log
are out as a whole, since each of them had the lock until it was. -/
structure Half (mem : UInt64 → Option (List UInt8)) (log : List (Nat × ConsoleCall))
    (out : List UInt8) (c : Nat) (call : ConsoleCall) (l : List (Nat × ConsoleCall))
    (o : List UInt8) : Prop where
  log : log = l ++ [(c, call)]
  out : out = wires mem l ++ o

/-- What holds in every state: the lock and its owner are with the CPUs that are in the section, no
check of the lock has failed, and the output is the texts of the log, the last of them perhaps cut
short by the CPU that is still printing. A panic in the log is the last one, because the flag is set
before the lock is free. -/
structure Inv (mem : UInt64 → Option (List UInt8)) (s : ConsoleState) : Prop where
  locked : ∃ t, Token (fun c => (s.pc c).InSection) t ∧ s.lock.locked = t.isSome
  owner : Token (fun c => (s.pc c).IsOwner) s.lock.cpu
  noFault : ∀ c, s.pc c ≠ .fault
  waiting : ∀ c call, (s.pc c).waiting = some call → call.Fits mem c
  history : ∀ c, callsOf s.log c = s.done c ++ (s.pc c).current
  last : ∀ e ∈ s.log.dropLast, e.2.isPanic = false
  panicked : ∀ e ∈ s.log, e.2.isPanic = true → s.panicked = true ∨ ∃ c call, s.pc c = .mark call
  quiet : (∀ c, ¬(s.pc c).Printing) → s.out = wires mem s.log
  mark : ∀ c call, s.pc c = .mark call → ∃ l, Half mem s.log s.out c call l [] ∧ call.Fits mem c
  print : ∀ c call ops, s.pc c = .print call ops →
    ∃ l o, Half mem s.log s.out c call l o ∧
      o ++ (opsOut ops s.buf).flatMap uartPutChar = wire mem c call

variable {mem : UInt64 → Option (List UInt8)} {s s' : ConsoleState} {c d : Nat}
  {pc : ConsolePc} {call : ConsoleCall}

/-- Where the CPUs are after one of them has gone on. -/
@[simp] theorem setPc_pc (s : ConsoleState) (c : Nat) (pc : ConsolePc) :
    (s.setPc c pc).pc = Function.update s.pc c pc := rfl

/-- Who prints is alone in the section. -/
theorem Inv.one (h : Inv mem s) (hc : (s.pc c).InSection) (hd : (s.pc d).InSection) : c = d := by
  obtain ⟨t, htoken, -⟩ := h.locked
  exact htoken.unique hc hd

/-- Nobody prints beside the CPU in the section. -/
theorem Inv.not_printing (h : Inv mem s) (hc : (s.pc c).InSection) (hne : d ≠ c) :
    ¬(s.pc d).Printing := fun hd => hne (h.one hd.isOwner.inSection hc)

/-- A step that touches the lock and the counter of a CPU that is not printing. The output and the
log stay, so what is to be shown is about the lock and the order of the calls of this CPU. -/
theorem Inv.frame (h : Inv mem s) {lock : SpinLock} {done : Nat → List ConsoleCall}
    (hlocked : ∃ t, Token (fun d => (Function.update s.pc c pc d).InSection) t ∧
      lock.locked = t.isSome)
    (howner : Token (fun d => (Function.update s.pc c pc d).IsOwner) lock.cpu)
    (hfault : pc ≠ .fault) (hwaiting : ∀ call, pc.waiting = some call → call.Fits mem c)
    (hdone : ∀ d ≠ c, done d = s.done d)
    (hcurrent : done c ++ pc.current = s.done c ++ (s.pc c).current)
    (hold : ¬(s.pc c).Printing) (hnew : ¬pc.Printing) :
    Inv mem ({ s with lock := lock, done := done }.setPc c pc) := by
  -- The CPU that steps is not printing, before or after, so who prints is who has printed.
  have hpc : ∀ d pc', pc'.Printing → Function.update s.pc c pc d = pc' → s.pc d = pc' := by
    intro d pc' hpc' heq
    by_cases hd : d = c
    · subst hd
      rw [Function.update_self] at heq
      exact absurd (heq ▸ hpc') hnew
    · rwa [Function.update_of_ne hd] at heq
  have hback : ∀ d pc', pc'.Printing → s.pc d = pc' → Function.update s.pc c pc d = pc' := by
    intro d pc' hpc' heq
    have hd : d ≠ c := by
      rintro rfl
      exact hold (heq ▸ hpc')
    rw [Function.update_of_ne hd, heq]
  refine ⟨hlocked, howner, ?_, ?_, ?_, h.last, ?_, ?_, ?_, ?_⟩
  · intro d
    by_cases hd : d = c
    · subst hd
      simpa using hfault
    · simpa [Function.update_of_ne hd] using h.noFault d
  · intro d call' hw
    by_cases hd : d = c
    · subst hd
      rw [setPc_pc, Function.update_self] at hw
      exact hwaiting call' hw
    · rw [setPc_pc, Function.update_of_ne hd] at hw
      exact h.waiting d call' hw
  · intro d
    by_cases hd : d = c
    · subst hd
      simp only [setPc_pc, Function.update_self]
      exact (h.history d).trans hcurrent.symm
    · simp only [setPc_pc, Function.update_of_ne hd]
      show callsOf s.log d = done d ++ _
      rw [hdone d hd]
      exact h.history d
  · intro e he hpanic
    rcases h.panicked e he hpanic with hp | ⟨d, call', hd⟩
    · exact .inl hp
    · exact .inr ⟨d, call', hback d _ trivial hd⟩
  · intro hquiet
    apply h.quiet
    intro d hd
    exact hquiet d (by rw [setPc_pc, hback d _ hd rfl]; exact hd)
  · intro d call' hd
    exact h.mark d call' (hpc d _ trivial hd)
  · intro d call' ops hd
    exact h.print d call' ops (hpc d _ trivial hd)

/-- A step of a CPU that has the lock. No other CPU is in the section, so whatever it writes is not
in the way of another one's message. -/
theorem Inv.own (h : Inv mem s) {panicked : Bool} {buf : Nat → UInt8} {out : List UInt8}
    {log : List (Nat × ConsoleCall)} (hc : (s.pc c).IsOwner) (hnew : pc.IsOwner)
    (hwaiting : pc.waiting = none) (hcurrent : callsOf log c = s.done c ++ pc.current)
    (hothers : ∀ d ≠ c, callsOf log d = callsOf s.log d)
    (hlast : ∀ e ∈ log.dropLast, e.2.isPanic = false)
    (hpanicked : ∀ e ∈ log, e.2.isPanic = true → panicked = true ∨ ∃ call, pc = .mark call)
    (hquiet : ¬pc.Printing → out = wires mem log)
    (hmark : ∀ call, pc = .mark call → ∃ l, Half mem log out c call l [] ∧ call.Fits mem c)
    (hprint : ∀ call ops, pc = .print call ops → ∃ l o, Half mem log out c call l o ∧
      o ++ (opsOut ops buf).flatMap uartPutChar = wire mem c call) :
    Inv mem ({ s with panicked := panicked, buf := buf, out := out, log := log }.setPc c pc) := by
  obtain ⟨t, htoken, hlocked⟩ := h.locked
  -- The others are not printing.
  have hself : ∀ d, (Function.update s.pc c pc d).Printing → d = c := by
    intro d hd
    by_contra hne
    rw [Function.update_of_ne hne] at hd
    exact h.not_printing hc.inSection hne hd
  refine ⟨⟨t, htoken.keep (iff_of_true hnew.inSection hc.inSection), hlocked⟩,
    h.owner.keep (iff_of_true hnew hc), ?_, ?_, ?_, hlast, ?_, ?_, ?_, ?_⟩
  · intro d
    by_cases hd : d = c
    · subst hd
      rw [setPc_pc, Function.update_self]
      rintro rfl
      exact hnew
    · rw [setPc_pc, Function.update_of_ne hd]
      exact h.noFault d
  · intro d call' hw
    by_cases hd : d = c
    · subst hd
      rw [setPc_pc, Function.update_self, hwaiting] at hw
      cases hw
    · rw [setPc_pc, Function.update_of_ne hd] at hw
      exact h.waiting d call' hw
  · intro d
    by_cases hd : d = c
    · subst hd
      simp only [setPc_pc, Function.update_self]
      exact hcurrent
    · simp only [setPc_pc, Function.update_of_ne hd]
      exact (hothers d hd).trans (h.history d)
  · intro e he hp
    rcases hpanicked e he hp with hp | ⟨call', rfl⟩
    · exact .inl hp
    · exact .inr ⟨c, call', Function.update_self ..⟩
  · intro hq
    apply hquiet
    have hqc := hq c
    rwa [setPc_pc, Function.update_self] at hqc
  · intro d call' hd
    rw [setPc_pc] at hd
    obtain rfl : d = c := hself d (by rw [hd]; trivial)
    rw [Function.update_self] at hd
    exact hmark call' hd
  · intro d call' ops hd
    rw [setPc_pc] at hd
    obtain rfl : d = c := hself d (by rw [hd]; trivial)
    rw [Function.update_self] at hd
    exact hprint call' ops hd

/-! ## One step

The steps in the section change the output, the buffer and the log; the steps outside of it only the
lock. -/

theorem callsOf_append (log : List (Nat × ConsoleCall)) (c d : Nat) (call : ConsoleCall) :
    callsOf (log ++ [(c, call)]) d = callsOf log d ++ if c = d then [call] else [] := by
  unfold callsOf
  rw [List.filter_append, List.map_append]
  congr 1
  by_cases hcd : c = d <;> simp [hcd]

theorem wires_append (l : List (Nat × ConsoleCall)) (c : Nat) (call : ConsoleCall) :
    wires mem (l ++ [(c, call)]) = wires mem l ++ wire mem c call := by
  simp [wires]

/-- The steps of a call make its message. -/
theorem wire_of_ops (h : call.Fits mem c) : ∃ ops, call.ops mem (.ofNat c) = .ok ops ∧
    ∀ b, (opsOut ops b).flatMap uartPutChar = wire mem c call := by
  obtain ⟨hnul, t, ht⟩ := h
  obtain ⟨ops, hops, hwrites⟩ := ConsoleCall.ops_writes hnul ht
  refine ⟨ops, hops, ?_⟩
  intro b
  rw [hwrites b, wire, ht]
  rfl

/-- After a step with the lock, nobody else is printing. -/
theorem Inv.quiet_of_owner (h : Inv mem s) (hc : (s.pc c).IsOwner) (hnot : ¬(s.pc c).Printing) :
    s.out = wires mem s.log := by
  apply h.quiet
  intro d hd
  by_cases hdc : d = c
  · subst hdc
    exact hnot hd
  · exact h.not_printing hc.inSection hdc hd

/-- `check_panicked`: the call is let through and logged, or turned away. If a panic is in the log,
the flag is set by now, and the call is turned away. -/
theorem Inv.check (h : Inv mem s) (hpc : s.pc c = .check call) (hstep : s.go mem c = some s') :
    Inv mem s' := by
  have howner : (s.pc c).IsOwner := by rw [hpc]; trivial
  have hfits : call.Fits mem c := h.waiting c call (by rw [hpc]; rfl)
  have hquiet := h.quiet_of_owner howner (by rw [hpc]; exact id)
  have hhistory := h.history c
  rw [hpc] at hhistory
  simp only [ConsoleState.go, hpc] at hstep
  by_cases hpanicked : s.panicked = true
  · rw [if_pos hpanicked, Option.some.injEq] at hstep
    subst hstep
    exact h.own howner trivial rfl hhistory (fun d _ => rfl) h.last
      (fun e he hp => .inl hpanicked) (fun _ => hquiet) (fun _ heq => nomatch heq)
      (fun _ _ heq => nomatch heq)
  · rw [if_neg hpanicked] at hstep
    have hmine : callsOf (s.log ++ [(c, call)]) c = s.done c ++ [call] := by
      rw [callsOf_append, if_pos rfl, hhistory]
      simp [ConsolePc.current]
    have hothers : ∀ d ≠ c, callsOf (s.log ++ [(c, call)]) d = callsOf s.log d := by
      intro d hd
      rw [callsOf_append, if_neg (Ne.symm hd), List.append_nil]
    -- No panic is in the log: the flag would be set, or its CPU would have the lock.
    have hcalm : ∀ e ∈ s.log, e.2.isPanic = false := by
      intro e he
      by_contra hp
      rcases h.panicked e he (by simpa using hp) with hflag | ⟨d, call', hd⟩
      · exact hpanicked hflag
      · have hdp : (s.pc d).Printing := by rw [hd]; trivial
        have hdc : d = c := h.one hdp.isOwner.inSection howner.inSection
        rw [hdc, hpc] at hd
        cases hd
    have hlast : ∀ e ∈ (s.log ++ [(c, call)]).dropLast, e.2.isPanic = false := by
      rw [List.dropLast_concat]
      exact hcalm
    have hhalf : Half mem (s.log ++ [(c, call)]) s.out c call s.log [] :=
      ⟨rfl, by rw [List.append_nil, hquiet]⟩
    by_cases hpanic : call.isPanic = true
    · rw [if_pos hpanic, Option.some.injEq] at hstep
      subst hstep
      refine h.own howner trivial rfl hmine hothers hlast (fun _ _ _ => .inr ⟨call, rfl⟩)
        (fun hp => absurd trivial hp) ?_ (fun _ _ heq => nomatch heq)
      rintro _ ⟨⟩
      exact ⟨s.log, hhalf, hfits⟩
    · obtain ⟨ops, hops, hwire⟩ := wire_of_ops hfits
      rw [if_neg hpanic, hops, Option.some.injEq] at hstep
      subst hstep
      refine h.own howner trivial rfl hmine hothers hlast ?_ (fun hp => absurd trivial hp)
        (fun _ heq => nomatch heq) ?_
      · intro e he hp
        rcases List.mem_append.mp he with he | he
        · exact absurd hp (by rw [hcalm e he]; exact Bool.false_ne_true)
        · rw [List.mem_singleton.mp he] at hp
          exact absurd hp hpanic
      · rintro _ _ ⟨⟩
        exact ⟨s.log, [], hhalf, hwire s.buf⟩

/-- `_panic` sets the flag before it prints. Every CPU that takes the lock later is stopped by
`check_panicked`, and so this message is the last. -/
theorem Inv.markStep (h : Inv mem s) (hpc : s.pc c = .mark call) (hstep : s.go mem c = some s') :
    Inv mem s' := by
  have howner : (s.pc c).IsOwner := by rw [hpc]; trivial
  obtain ⟨l, hhalf, hfits⟩ := h.mark c call hpc
  obtain ⟨ops, hops, hwire⟩ := wire_of_ops hfits
  have hhistory := h.history c
  rw [hpc] at hhistory
  simp only [ConsoleState.go, hpc, hops, Option.some.injEq] at hstep
  subst hstep
  refine h.own howner trivial rfl hhistory (fun d _ => rfl) h.last (fun _ _ _ => .inl rfl)
    (fun hp => absurd trivial hp) (fun _ heq => nomatch heq) ?_
  rintro _ _ ⟨⟩
  exact ⟨l, [], hhalf, hwire s.buf⟩

/-- One byte, or one write to the buffer of `_print_int`. The rest of the steps puts out the rest of
the text, from the buffer as it is after this step. -/
theorem Inv.printStep (h : Inv mem s) {ops : List FormatOp} (hpc : s.pc c = .print call ops)
    (hstep : s.go mem c = some s') : Inv mem s' := by
  have howner : (s.pc c).IsOwner := by rw [hpc]; trivial
  obtain ⟨l, o, hhalf, hout⟩ := h.print c call ops hpc
  have hhistory := h.history c
  rw [hpc] at hhistory
  have hpanicked : ∀ e ∈ s.log, e.2.isPanic = true → s.panicked = true := by
    intro e he hp
    rcases h.panicked e he hp with hflag | ⟨d, call', hd⟩
    · exact hflag
    · have hdp : (s.pc d).Printing := by rw [hd]; trivial
      have hdc : d = c := h.one hdp.isOwner.inSection howner.inSection
      rw [hdc, hpc] at hd
      cases hd
  cases ops with
  | nil =>
    simp only [ConsoleState.go, hpc, Option.some.injEq] at hstep
    subst hstep
    have hend : s.out = wires mem s.log := by
      rw [hhalf.out, hhalf.log, wires_append, ← hout]
      simp [opsOut]
    exact h.own howner trivial rfl hhistory (fun d _ => rfl) h.last
      (fun e he hp => .inl (hpanicked e he hp)) (fun _ => hend) (fun _ heq => by cases heq)
      (fun _ _ heq => by cases heq)
  | cons op ops =>
    simp only [ConsoleState.go, hpc, Option.some.injEq] at hstep
    subst hstep
    refine h.own howner trivial rfl hhistory (fun d _ => rfl) h.last
      (fun e he hp => .inl (hpanicked e he hp)) (fun hp => absurd trivial hp)
      (fun _ heq => by cases heq) ?_
    rintro _ _ ⟨⟩
    refine ⟨l, o ++ (op.out s.buf).flatMap uartPutChar, ⟨hhalf.log, ?_⟩, ?_⟩
    · rw [hhalf.out, List.append_assoc]
    · rw [← hout, opsOut, List.flatMap_append, List.append_assoc]

/-- `acquire_spinlock` panics if the CPU has the lock, which it has not. -/
theorem Inv.acquireStep (h : Inv mem s) (hpc : s.pc c = .acquire call)
    (hstep : s.go mem c = some s') : Inv mem s' := by
  have hfree : ¬s.lock.Holding c := by
    intro hhold
    have howner : (s.pc c).IsOwner := (h.owner c).mp hhold.2
    rw [hpc] at howner
    exact howner
  simp only [ConsoleState.go, hpc, if_neg hfree, Option.some.injEq] at hstep
  subst hstep
  obtain ⟨t, htoken, hlocked⟩ := h.locked
  refine h.frame ⟨t, htoken.keep (by rw [hpc]; rfl), hlocked⟩ (h.owner.keep (by rw [hpc]; rfl))
    (fun heq => nomatch heq) ?_ (fun _ _ => rfl) (by rw [hpc]; rfl) (by rw [hpc]; exact id) id
  rintro _ ⟨⟩
  exact h.waiting c call (by rw [hpc]; rfl)

/-- The lock is taken if it is free. No other CPU is in the section then, by the invariant, and so
this one is alone in it. -/
theorem Inv.spinStep (h : Inv mem s) (hpc : s.pc c = .spin call)
    (hstep : s.go mem c = some s') : Inv mem s' := by
  simp only [ConsoleState.go, hpc] at hstep
  obtain ⟨t, htoken, hlocked⟩ := h.locked
  split at hstep
  · cases hstep
    exact h
  · next hfree =>
    rw [Option.some.injEq] at hstep
    subst hstep
    cases t with
    | some d => exact absurd hlocked hfree
    | none =>
      refine h.frame ⟨some c, htoken.take trivial, rfl⟩ (h.owner.keep (by rw [hpc]; rfl))
        (fun heq => nomatch heq) ?_ (fun _ _ => rfl) (by rw [hpc]; rfl) (by rw [hpc]; exact id) id
      rintro _ ⟨⟩
      exact h.waiting c call (by rw [hpc]; rfl)

/-- The CPU becomes the owner. The owner was none, as no other CPU is between its store and its own
release. -/
theorem Inv.ownStep (h : Inv mem s) (hpc : s.pc c = .own call)
    (hstep : s.go mem c = some s') : Inv mem s' := by
  have hnobody : s.lock.cpu = none := by
    cases hcpu : s.lock.cpu with
    | none => rfl
    | some d =>
      have howner : (s.pc d).IsOwner := (h.owner d).mp hcpu
      have hdc : d = c := h.one howner.inSection (by rw [hpc]; trivial)
      rw [hdc, hpc] at howner
      exact absurd howner id
  simp only [ConsoleState.go, hpc, Option.some.injEq] at hstep
  subst hstep
  obtain ⟨t, htoken, hlocked⟩ := h.locked
  have howner := h.owner
  rw [hnobody] at howner
  refine h.frame ⟨t, htoken.keep (by rw [hpc]; rfl), hlocked⟩ (howner.take trivial)
    (fun heq => nomatch heq) ?_ (fun _ _ => rfl) (by rw [hpc]; rfl) (by rw [hpc]; exact id) id
  rintro _ ⟨⟩
  exact h.waiting c call (by rw [hpc]; rfl)

/-- The owner is cleared first, and `locked` in a step of its own after it. Between the two the CPU
still counts as inside the section. -/
theorem Inv.releaseStep (h : Inv mem s) {done : Option ConsoleCall} (hpc : s.pc c = .release done)
    (hstep : s.go mem c = some s') : Inv mem s' := by
  have howner : (s.pc c).IsOwner := by rw [hpc]; trivial
  obtain ⟨t, htoken, hlocked⟩ := h.locked
  have ht : t = some c := (htoken c).mpr howner.inSection
  subst ht
  have hhold : s.lock.Holding c := ⟨hlocked, (h.owner c).mpr howner⟩
  simp only [ConsoleState.go, hpc, if_pos hhold, Option.some.injEq] at hstep
  subst hstep
  exact h.frame ⟨_, htoken.keep (iff_of_true trivial howner.inSection), hlocked⟩
    (h.owner.drop howner id) (fun heq => nomatch heq) (fun _ heq => nomatch heq) (fun _ _ => rfl)
    (by rw [hpc]; cases done <;> rfl) (by rw [hpc]; exact id) id

/-- The lock is free again. The message is complete, so the output is the texts of whole calls for
now. -/
theorem Inv.unlockStep (h : Inv mem s) {done : Option ConsoleCall} (hpc : s.pc c = .unlock done)
    (hstep : s.go mem c = some s') : Inv mem s' := by
  have hsection : (s.pc c).InSection := by rw [hpc]; trivial
  obtain ⟨t, htoken, hlocked⟩ := h.locked
  simp only [ConsoleState.go, hpc] at hstep
  cases done with
  | none =>
    rw [Option.some.injEq] at hstep
    subst hstep
    exact h.frame ⟨none, htoken.drop hsection id, rfl⟩ (h.owner.keep (by rw [hpc]; rfl))
      (fun heq => nomatch heq) (fun _ heq => nomatch heq) (fun _ _ => rfl) (by rw [hpc]; rfl)
      (by rw [hpc]; exact id) id
  | some call =>
    rw [Option.some.injEq] at hstep
    subst hstep
    have hdone : ∀ d ≠ c, Function.update s.done c (s.done c ++ [call]) d = s.done d := by
      intro d hd
      exact Function.update_of_ne hd _ _
    cases hp : call.isPanic
    · exact h.frame ⟨none, htoken.drop hsection id, rfl⟩ (h.owner.keep (by rw [hpc]; rfl))
        (fun heq => nomatch heq) (fun _ heq => nomatch heq) hdone
        (by rw [hpc, Function.update_self]; simp [ConsolePc.current]) (by rw [hpc]; exact id) id
    · exact h.frame ⟨none, htoken.drop hsection id, rfl⟩ (h.owner.keep (by rw [hpc]; rfl))
        (fun heq => nomatch heq) (fun _ heq => nomatch heq) hdone
        (by rw [hpc, Function.update_self]; simp [ConsolePc.current]) (by rw [hpc]; exact id) id

/-- The step lemma: a case for each place where a CPU may be. Those without the lock go through
`Inv.frame`, the one with it through `Inv.own`. -/
theorem Inv.step (h : Inv mem s) {a : ConsoleAct} (hok : s.Allowed mem a)
    (hstep : s.step mem a = some s') : Inv mem s' := by
  cases a with
  | call c call =>
    simp only [ConsoleState.step] at hstep
    split at hstep
    · next hpc =>
      rw [Option.some.injEq] at hstep
      subst hstep
      obtain ⟨t, htoken, hlocked⟩ := h.locked
      refine h.frame ⟨t, htoken.keep (by rw [hpc]; rfl), hlocked⟩ (h.owner.keep (by rw [hpc]; rfl))
        (fun heq => nomatch heq) ?_ (fun _ _ => rfl) (by rw [hpc]; rfl) (by rw [hpc]; exact id) id
      rintro _ ⟨⟩
      exact hok
    · cases hstep
  | go c =>
    change s.go mem c = some s' at hstep
    cases hpc : s.pc c with
    | ready | stopped | fault => simp [ConsoleState.go, hpc] at hstep
    | acquire call => exact h.acquireStep hpc hstep
    | spin call => exact h.spinStep hpc hstep
    | own call => exact h.ownStep hpc hstep
    | check call => exact h.check hpc hstep
    | mark call => exact h.markStep hpc hstep
    | print call ops => exact h.printStep hpc hstep
    | release done => exact h.releaseStep hpc hstep
    | unlock done => exact h.unlockStep hpc hstep

end ConsoleState

/-- After `init_console`, before the first message. The buffer is static memory and may hold
anything. -/
def initConsole (buf : Nat → UInt8) : ConsoleState where
  lock := initSpinlock "console"
  panicked := false
  buf := buf
  pc _ := .ready
  out := []
  log := []
  done _ := []

namespace ConsoleState

variable {mem : UInt64 → Option (List UInt8)} {s : ConsoleState}

/-- All interleavings of calls whose arguments are those of their format strings. -/
def Run (mem : UInt64 → Option (List UInt8)) : ConsoleState → ConsoleState → Prop :=
  Steps (fun s a s' => s.step mem a = some s') fun s a => s.Allowed mem a

/-- Nothing is printed at first: the lock is free, all CPUs are outside of the console, and the
history is empty like the output. -/
theorem inv_init (mem : UInt64 → Option (List UInt8)) (buf : Nat → UInt8) :
    Inv mem (initConsole buf) where
  locked := ⟨none, fun _ => ⟨fun h => (nomatch h), fun h => h.elim⟩, rfl⟩
  owner _ := ⟨fun h => (nomatch h), fun h => h.elim⟩
  noFault _ h := nomatch h
  waiting _ _ h := nomatch h
  history _ := rfl
  last _ he := absurd he List.not_mem_nil
  panicked _ he := absurd he List.not_mem_nil
  quiet _ := rfl
  mark _ _ h := nomatch h
  print _ _ _ h := nomatch h

/-- The invariant holds along a run. -/
theorem Run.inv {buf : Nat → UInt8} (h : Run mem (initConsole buf) s) : Inv mem s :=
  h.invariant (I := Inv mem) (inv_init mem buf) fun _ _ _ hinv hok hstep => hinv.step hok hstep

/-- However the CPUs run, the UART gets whole messages, one after the other, the last of which may
not be complete yet. The messages of a CPU are those of its calls, in their order, none twice; a
panic is the last message of all, and `acquire_spinlock` and `release_spinlock` never panic. -/
theorem console_messages {buf : Nat → UInt8} (h : Run mem (initConsole buf) s) :
    (∃ o, wires mem s.log.dropLast ++ o = s.out ∧ s.out <+: wires mem s.log) ∧
      ((∀ c, ¬(s.pc c).Printing) → s.out = wires mem s.log) ∧
      (∀ c, callsOf s.log c = s.done c ++ (s.pc c).current) ∧
      (∀ e ∈ s.log.dropLast, e.2.isPanic = false) ∧
      ∀ c, s.pc c ≠ .fault := by
  have hinv := h.inv
  refine ⟨?_, hinv.quiet, hinv.history, hinv.last, hinv.noFault⟩
  by_cases hquiet : ∀ c, ¬(s.pc c).Printing
  · have hout := hinv.quiet hquiet
    have hsplit : ∃ o, wires mem s.log.dropLast ++ o = wires mem s.log := by
      rcases List.eq_nil_or_concat s.log with hnil | ⟨l, e, hl⟩
      · exact ⟨[], by rw [hnil]; rfl⟩
      · refine ⟨wire mem e.1 e.2, ?_⟩
        rw [hl, List.concat_eq_append, List.dropLast_concat]
        exact (wires_append l e.1 e.2).symm
    obtain ⟨o, ho⟩ := hsplit
    exact ⟨o, ho.trans hout.symm, hout ▸ List.prefix_refl _⟩
  · rw [not_forall] at hquiet
    obtain ⟨c, hc⟩ := hquiet
    rw [not_not] at hc
    cases hpc : s.pc c with
    | mark call =>
      obtain ⟨l, hhalf, -⟩ := hinv.mark c call hpc
      refine ⟨[], ?_, ?_⟩
      · rw [hhalf.log, List.dropLast_concat, hhalf.out]
      · rw [hhalf.log, hhalf.out, wires_append, List.append_nil]
        exact List.prefix_append _ _
    | print call ops =>
      obtain ⟨l, o, hhalf, hout⟩ := hinv.print c call ops hpc
      refine ⟨o, ?_, ?_⟩
      · rw [hhalf.log, List.dropLast_concat, hhalf.out]
      · rw [hhalf.log, hhalf.out, wires_append, ← hout, ← List.append_assoc]
        exact List.prefix_append _ _
    | _ => rw [hpc] at hc; exact hc.elim

/-- A list of steps is a run if each of its acts is allowed in every state. The witnesses run the
console this way. -/
theorem Run.of_foldlM {acts : List ConsoleAct} {s s' : ConsoleState}
    (hok : ∀ a ∈ acts, ∀ s : ConsoleState, s.Allowed mem a)
    (h : acts.foldlM (fun s a => s.step mem a) s = some s') : Run mem s s' := by
  induction acts generalizing s with
  | nil =>
    cases h
    exact Steps.refl _
  | cons a acts ih =>
    rw [List.foldlM_cons] at h
    obtain ⟨u, hstep, hrest⟩ := Option.bind_eq_some_iff.mp h
    exact Steps.head (hok a List.mem_cons_self u) hstep
      (ih (fun b hb => hok b (List.mem_cons_of_mem a hb)) hrest)

/-- `puts("a")` on CPU 0 and `puts("b")` on CPU 1: the second waits, and is half through. -/
theorem console_messages_two : ∃ s, Run (fun _ => none) (initConsole fun _ => 0) s ∧
    s.log = [(0, .puts [97]), (1, .puts [98])] ∧ s.out = [97, 10, 13, 98] ∧
    s.out <+: wires (fun _ => none) s.log ∧ s.done 0 = [.puts [97]] := by
  let acts : List ConsoleAct := [.call 0 (.puts [97]), .call 1 (.puts [98]), .go 0, .go 1, .go 0,
    .go 1, .go 0, .go 0, .go 0, .go 1, .go 0, .go 0, .go 0, .go 0, .go 1, .go 1, .go 1, .go 1]
  obtain ⟨s, hs⟩ : ∃ s, acts.foldlM (fun s a => s.step (fun _ => none) a)
      (initConsole fun _ => 0) = some s := ⟨_, rfl⟩
  have hrun : Run (fun _ => none) (initConsole fun _ => 0) s := by
    apply Run.of_foldlM _ hs
    intro a ha s
    simp only [acts, List.mem_cons, List.not_mem_nil, or_false] at ha
    rcases ha with rfl | rfl | rfl | rfl | rfl | rfl | rfl | rfl | rfl | rfl | rfl | rfl | rfl |
      rfl | rfl | rfl | rfl | rfl
    · exact ⟨show (0 : UInt8) ∉ [97] by decide, _, rfl⟩
    · exact ⟨show (0 : UInt8) ∉ [98] by decide, _, rfl⟩
    all_goals trivial
  obtain ⟨⟨o, -, hprefix⟩, -, hcalls, -, -⟩ := console_messages hrun
  cases hs
  exact ⟨_, hrun, rfl, rfl, hprefix, rfl⟩

end ConsoleState

end KernelAarch64.Core
