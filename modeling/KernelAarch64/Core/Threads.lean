import KernelAarch64.Core.Swtch

/-!
# Threads on several CPUs (`asm/swtch.S`)

Processes and schedulers are threads. Where a thread is that no CPU runs is in a `struct context` on
its stack, which the thread's slot points to: `p->context`, or `scheduler.context[cpuid]`. A CPU
that runs a thread `t` calls `swtch(&t->context, u->context)` and executes it instruction by
instruction, while the other CPUs do what they like.

What a thread may rely on is memory that is its own: other threads do not write it. Which memory
that is changes when the thread says so, for instance while a buffer on its stack is in the hands of
the SD card driver.

The main results are `swtch_resumes` and `created_starts`. `Good` is the invariant: there is a
context for every thread, and it is found in a CPU, on the stack of the thread, or half-way between
the two while a `swtch` is being executed (`Switching`). `Good.step` has a lemma for each kind of
step before it, and says of the threads that do not act that their context and their memory are kept
(`Kept`); runs follow by `Steps`, and a thread that comes back has therefore the context with which
it left.
-/

namespace KernelAarch64.Core

open KernelAarch64.Lib KernelAarch64.Common

/-- What a CPU does: it runs a thread, or it has `rest` to do of a `swtch` from `t` to `u`. -/
inductive Job (τ : Type) where
  | run (t : τ)
  | switch (t u : τ) (rest : List Instr)

/-- The CPUs are named by `ι`, the threads by `τ`. Which bytes belong to a thread is ghost state:
its stack, its slot and whatever else it works with. -/
structure ThreadSystem (ι τ : Type) where
  mem : Memory
  cpu : ι → Cpu
  job : ι → Job τ
  /-- The bytes that only the thread writes. -/
  own : τ → Set UInt64
  /-- The threads that have been made. -/
  alive : Set τ

/-- What can happen next. All but the instructions of `swtch` is left open: a thread may do anything
that keeps to its own bytes. -/
inductive ThreadAct (ι τ : Type) where
  /-- The thread on CPU `c` does anything: it leaves the registers `k` and the memory `mem`, and
  `own` is its own now. -/
  | compute (c : ι) (k : Cpu) (mem : Memory) (own : Set UInt64)
  /-- The thread on CPU `c` has made the thread `v` and gives it the memory `own`. -/
  | create (c : ι) (v : τ) (own : Set UInt64)
  /-- The thread on CPU `c` calls `swtch` with the context of `u`. -/
  | call (c : ι) (u : τ)
  /-- CPU `c` executes the next instruction of `swtch`. -/
  | instr (c : ι)

namespace ThreadSystem

variable {ι τ : Type} [DecidableEq ι] [DecidableEq τ]

/-- One of these. A CPU that is in `swtch` goes on with the next instruction and does nothing else.
-/
def step (s : ThreadSystem ι τ) : ThreadAct ι τ → Option (ThreadSystem ι τ)
  | .compute c k mem own =>
    match s.job c with
    | .run t =>
      some { s with
        mem := mem
        cpu := Function.update s.cpu c k
        own := Function.update s.own t own }
    | .switch .. => none
  | .create c v own =>
    match s.job c with
    | .run t =>
      some { s with
        own := Function.update (Function.update s.own t (s.own t \ own)) v own
        alive := insert v s.alive }
    | .switch .. => none
  | .call c u =>
    match s.job c with
    | .run t => some { s with job := Function.update s.job c (.switch t u swtch) }
    | .switch .. => none
  | .instr c =>
    match s.job c with
    | .run _ => none
    | .switch _ u [] => some { s with job := Function.update s.job c (.run u) }
    | .switch t u (i :: rest) =>
      let r := i.exec (s.cpu c, s.mem)
      some { s with
        mem := r.2
        cpu := Function.update s.cpu c r.1
        job := Function.update s.job c (.switch t u rest) }

/-- CPU `c` runs `t` or is about to, or has not left it yet. A thread that no CPU is involved with
is saved in memory. -/
def Involves (s : ThreadSystem ι τ) (c : ι) (t : τ) : Prop :=
  match s.job c with
  | .run u => t = u
  | .switch u v _ => t = u ∨ t = v

/-- What threads keep to. `slot t` is the address of the pointer to the context of `t`. The locks of
the process table see to it that a thread is taken up by one CPU, and not before it is left. -/
def Allowed (slot : τ → UInt64) (s : ThreadSystem ι τ) : ThreadAct ι τ → Prop
  | .compute c _ mem own =>
    ∀ t, s.job c = .run t → bytesAt (slot t) 8 ⊆ own ∧
      ∀ u ≠ t, Disjoint own (s.own u) ∧ ∀ a ∈ s.own u, mem a = s.mem a
  | .create c v own =>
    v ∉ s.alive ∧ bytesAt (slot v) 8 ⊆ own ∧
      bytesAt (load64 s.mem (slot v)) sizeofContext ⊆ own ∧
      ∀ t, s.job c = .run t → own ⊆ s.own t ∧ Disjoint own (bytesAt (slot t) 8)
  | .call c u =>
    u ∈ s.alive ∧ (∀ d, ¬ s.Involves d u) ∧
      ∀ t, s.job c = .run t → (s.cpu c).x 0 = slot t ∧ (s.cpu c).x 1 = load64 s.mem (slot u) ∧
        frameOf (s.cpu c).sp ⊆ s.own t ∧ Disjoint (frameOf (s.cpu c).sp) (bytesAt (slot t) 8)
  | .instr _ => True

/-- The thread `t` does the step, or is made by it. The steps of all others should not be seen by
`t`. -/
def Acts (s : ThreadSystem ι τ) (t : τ) : ThreadAct ι τ → Prop
  | .compute c _ _ _ => s.job c = .run t
  | .create c v _ => s.job c = .run t ∨ t = v
  | .call c _ => s.job c = .run t
  | .instr _ => False

end ThreadSystem

/-! ## A thread that is left and taken up again

What `swtch` does is put as a predicate of the instructions that are left: the stores that are still
to be made will save `x`, and the loads will bring `y`. It is closed under the next instruction, and
nobody else can disturb it, as all the memory involved is owned by the two threads. -/

/-- The context `x` is saved for the thread with the slot `p`, in memory of its own. -/
structure Saved (p : UInt64) (own : Set UInt64) (x : ThreadContext) (mem : Memory) : Prop where
  frame : bytesAt (load64 mem p) sizeofContext ⊆ own
  context : contextAt mem (load64 mem p) = x

/-- With `rest` still to do, the context `x` of the thread with the slot `p` is going to be saved
and the context `y` of the thread with the slot `q` taken up. -/
structure Switching (p q : UInt64) (ownP ownQ : Set UInt64) (x y : ThreadContext)
    (rest : List Instr) (k : Cpu) (mem : Memory) : Prop where
  frame : frameOf x.sp ⊆ ownP
  new : bytesAt (load64 mem q) sizeofContext ⊆ ownQ
  within : Within (frameOf x.sp ∪ bytesAt p 8) (bytesAt (load64 mem q) sizeofContext) rest (k, mem)
  resumed : cpuContext (execAll rest (k, mem)).1 = y
  pointer : load64 (execAll rest (k, mem)).2 p = x.sp - 128
  saved : contextAt (execAll rest (k, mem)).2 (x.sp - 128) = x

section Switch

variable {p q : UInt64} {own ownP ownQ : Set UInt64} {x y : ThreadContext} {rest : List Instr}
  {k : Cpu} {mem mem' : Memory} {i : Instr}

/-- A word in owned memory is the same in two memories that agree there. -/
theorem load64_congr_own (hp : bytesAt p 8 ⊆ own) (h : ∀ a ∈ own, mem a = mem' a) :
    load64 mem p = load64 mem' p := by
  apply load64_congr
  intro a ha
  exact h a (hp ha)

/-- Others do not disturb a saved context. -/
theorem Saved.congr (h : Saved p own x mem) (hp : bytesAt p 8 ⊆ own)
    (hmem : ∀ a ∈ own, mem a = mem' a) : Saved p own x mem' := by
  have hptr : load64 mem p = load64 mem' p := load64_congr_own hp hmem
  have hframe := h.frame
  have hcontext := h.context
  rw [contextAt_congr fun a ha => hmem a (hframe ha)] at hcontext
  rw [hptr] at hframe hcontext
  exact ⟨hframe, hcontext⟩

/-- Others do not disturb a `swtch`: it depends on the memory of the thread it leaves and of the
thread it goes to, and on nothing else. -/
theorem Switching.congr (h : Switching p q ownP ownQ x y rest k mem) (hp : bytesAt p 8 ⊆ ownP)
    (hq : bytesAt q 8 ⊆ ownQ) (hmem : ∀ a ∈ ownP ∪ ownQ, mem a = mem' a) :
    Switching p q ownP ownQ x y rest k mem' := by
  have hptr : load64 mem q = load64 mem' q :=
    load64_congr_own hq fun a ha => hmem a (.inr ha)
  have hread : bytesAt (load64 mem q) sizeofContext ⊆ ownP ∪ ownQ := fun a ha => .inr (h.new ha)
  obtain ⟨hwithin, hcpu, hend⟩ := execAll_congr h.within hread hmem
  have hresumed := h.resumed
  have hpointer := h.pointer
  have hsaved := h.saved
  rw [hcpu] at hresumed
  rw [load64_congr_own hp fun a ha => hend a (.inl ha)] at hpointer
  rw [contextAt_congr fun a ha => hend a (.inl (h.frame ha))] at hsaved
  rw [hptr] at hwithin
  exact ⟨h.frame, hptr ▸ h.new, hwithin, hresumed, hpointer, hsaved⟩

/-- What `swtch` writes is the caller's. -/
theorem Switching.exec_outside (h : Switching p q ownP ownQ x y (i :: rest) k mem) {a : UInt64}
    (hframe : a ∉ frameOf x.sp) (hp : a ∉ bytesAt p 8) : (i.exec (k, mem)).2 a = mem a := by
  apply Instr.exec_outside h.within.1
  intro ha
  rcases ha with ha | ha
  · exact hframe ha
  · exact hp ha

/-- So the memory of others stays. -/
theorem Switching.exec_own (h : Switching p q ownP ownQ x y (i :: rest) k mem)
    (hp : bytesAt p 8 ⊆ ownP) {a : UInt64} (ha : a ∉ ownP) : (i.exec (k, mem)).2 a = mem a := by
  apply h.exec_outside
  · intro hmem
    exact ha (h.frame hmem)
  · intro hmem
    exact ha (hp hmem)

/-- The next instruction of a `swtch` leaves it in order: what has been saved and what is still to
be loaded add up to the two contexts. -/
theorem Switching.instr (h : Switching p q ownP ownQ x y (i :: rest) k mem)
    (hp : bytesAt p 8 ⊆ ownP) (hq : bytesAt q 8 ⊆ ownQ) (hdisj : Disjoint ownP ownQ) :
    Switching p q ownP ownQ x y rest (i.exec (k, mem)).1 (i.exec (k, mem)).2 := by
  have hptr : load64 (i.exec (k, mem)).2 q = load64 mem q := by
    apply load64_congr_own hq
    intro a ha
    exact h.exec_own hp fun hin => Set.disjoint_left.mp hdisj hin ha
  refine ⟨h.frame, ?_, ?_, h.resumed, h.pointer, h.saved⟩
  · rw [hptr]
    exact h.new
  · rw [hptr]
    exact h.within.2

/-- A call of `swtch`: at its first instruction all of the old context is in the registers, and all
of the new one is in the frame that its slot points to. -/
theorem Switching.call (hx0 : k.x 0 = p) (hx1 : k.x 1 = load64 mem q) (hframe : frameOf k.sp ⊆ ownP)
    (hapart : Disjoint (frameOf k.sp) (bytesAt p 8)) (hp : bytesAt p 8 ⊆ ownP)
    (hsaved : Saved q ownQ y mem) (hdisj : Disjoint ownP ownQ) :
    Switching p q ownP ownQ (callContext k) y swtch k mem := by
  have hnew : ∀ a ∈ bytesAt (k.x 1) sizeofContext, a ∉ frameOf k.sp ∧ a ∉ bytesAt (k.x 0) 8 := by
    intro a ha
    rw [hx1] at ha
    have hown : a ∉ ownP := fun hin => Set.disjoint_left.mp hdisj hin (hsaved.frame ha)
    rw [hx0]
    exact ⟨fun hin => hown (hframe hin), fun hin => hown (hp hin)⟩
  have hslot : ∀ a ∈ frameOf k.sp, a ∉ bytesAt (k.x 0) 8 := by
    intro a ha
    rw [hx0]
    exact Set.disjoint_left.mp hapart ha
  have hwithin := within_swtch k mem
  obtain ⟨hresumed, hpointer, hcontext, -⟩ := swtch_spec mem hslot hnew
  rw [hx0] at hwithin hpointer
  rw [hx1] at hwithin hresumed
  exact ⟨hframe, hsaved.frame, hwithin, hresumed.trans hsaved.context, hpointer, hcontext⟩

/-- The end of `swtch`. -/
theorem Switching.done (h : Switching p q ownP ownQ x y [] k mem) : Saved p ownP x mem := by
  have hptr : load64 mem p = x.sp - 128 := h.pointer
  refine ⟨?_, ?_⟩
  · rw [hptr]
    exact h.frame
  · rw [hptr]
    exact h.saved

end Switch

/-! ## The invariant

A step of one CPU changes the memory of its own threads only. `Good.of_step` is the frame of this:
all that is left to show for a step is what happens on the CPU that makes it. -/

namespace ThreadSystem

variable {ι τ : Type} {slot : τ → UInt64} {s s' : ThreadSystem ι τ}
  {ctx ctx' : τ → ThreadContext} {c d : ι} {t u : τ} {a : ThreadAct ι τ}

/-- What is known of the CPU `c`: the context of the thread that it runs is in its registers, or it
is somewhere in `swtch` between two threads. -/
def OnCpu (slot : τ → UInt64) (s : ThreadSystem ι τ) (ctx : τ → ThreadContext) (c : ι) : Prop :=
  match s.job c with
  | .run t => cpuContext (s.cpu c) = ctx t
  | .switch t u rest =>
    t ≠ u ∧ Switching (slot t) (slot u) (s.own t) (s.own u) (ctx t) (ctx u) rest (s.cpu c) s.mem

/-- The context of every thread is somewhere: in a CPU, on the stack or on the way. The bytes of
different threads are disjoint, and no thread is with two CPUs, which is why instructions of
different CPUs do not meet. -/
structure Good (slot : τ → UInt64) (s : ThreadSystem ι τ) (ctx : τ → ThreadContext) : Prop where
  slot_own : ∀ t ∈ s.alive, bytesAt (slot t) 8 ⊆ s.own t
  disjoint : ∀ t ∈ s.alive, ∀ u ∈ s.alive, t ≠ u → Disjoint (s.own t) (s.own u)
  busy : ∀ c t, s.Involves c t → t ∈ s.alive
  one : ∀ c d t, s.Involves c t → s.Involves d t → c = d
  cpu : ∀ c, s.OnCpu slot ctx c
  saved : ∀ t ∈ s.alive, (∀ c, ¬ s.Involves c t) → Saved (slot t) (s.own t) (ctx t) s.mem

/-- Between `s` and `s'` nothing happens to `t`: its bytes are its own and hold what they did. -/
structure Untouched (s s' : ThreadSystem ι τ) (ctx ctx' : τ → ThreadContext) (t : τ) : Prop where
  own : s'.own t = s.own t
  mem : ∀ a ∈ s.own t, s.mem a = s'.mem a
  ctx : ctx' t = ctx t

/-- A CPU with the same job involves the same threads. -/
theorem involves_congr (h : s'.job c = s.job c) : s'.Involves c t ↔ s.Involves c t := by
  rw [Involves, Involves, h]

/-- A CPU whose threads are not touched is as it was. In the middle of `swtch` this is about the
bytes of both threads. -/
theorem OnCpu.congr (h : s.OnCpu slot ctx c)
    (hslot : ∀ t, s.Involves c t → bytesAt (slot t) 8 ⊆ s.own t)
    (hcpu : s'.cpu c = s.cpu c) (hjob : s'.job c = s.job c)
    (hsame : ∀ t, s.Involves c t → Untouched s s' ctx ctx' t) : s'.OnCpu slot ctx' c := by
  unfold OnCpu at h ⊢
  rw [hjob, hcpu]
  cases hj : s.job c with
  | run t =>
    have hin : s.Involves c t := by simp [Involves, hj]
    rw [hj] at h
    show cpuContext (s.cpu c) = ctx' t
    rw [(hsame t hin).ctx]
    exact h
  | switch t u rest =>
    have hint : s.Involves c t := by simp [Involves, hj]
    have hinu : s.Involves c u := by simp [Involves, hj]
    rw [hj] at h
    refine ⟨h.1, ?_⟩
    rw [(hsame t hint).own, (hsame u hinu).own, (hsame t hint).ctx, (hsame u hinu).ctx]
    apply h.2.congr (hslot t hint) (hslot u hinu)
    intro a ha
    rcases ha with ha | ha
    · exact (hsame t hint).mem a ha
    · exact (hsame u hinu).mem a ha

/-- A step of the CPU `c` that touches no thread of the others. The step lemmas are instances of it,
and what is left to show there is about this CPU. -/
theorem Good.of_step (h : Good slot s ctx) (c : ι) (hcpu : ∀ d ≠ c, s'.cpu d = s.cpu d)
    (hjob : ∀ d ≠ c, s'.job d = s.job d)
    (hother : ∀ t ∈ s.alive, ¬ s.Involves c t → Untouched s s' ctx ctx' t)
    (hslot : ∀ t ∈ s'.alive, bytesAt (slot t) 8 ⊆ s'.own t)
    (hdisj : ∀ t ∈ s'.alive, ∀ u ∈ s'.alive, t ≠ u → Disjoint (s'.own t) (s'.own u))
    (halive : ∀ t ∈ s.alive, t ∈ s'.alive)
    (hinv : ∀ t, s'.Involves c t → t ∈ s'.alive ∧ ∀ d ≠ c, ¬ s.Involves d t)
    (hon : s'.OnCpu slot ctx' c)
    (hleft : ∀ t ∈ s'.alive, t ∉ s.alive ∨ s.Involves c t → ¬ s'.Involves c t →
      Saved (slot t) (s'.own t) (ctx' t) s'.mem) : Good slot s' ctx' where
  slot_own := hslot
  disjoint := hdisj
  busy d t hin := by
    by_cases hd : d = c
    · subst hd
      exact (hinv t hin).1
    · exact halive t (h.busy d t ((involves_congr (hjob d hd)).mp hin))
  -- A thread that CPU `c` is busy with now was with no other CPU before.
  one d e t hd he := by
    by_cases hdc : d = c
    · by_cases hec : e = c
      · rw [hdc, hec]
      · subst hdc
        exact absurd ((involves_congr (hjob e hec)).mp he) ((hinv t hd).2 e hec)
    · by_cases hec : e = c
      · subst hec
        exact absurd ((involves_congr (hjob d hdc)).mp hd) ((hinv t he).2 d hdc)
      · exact h.one d e t ((involves_congr (hjob d hdc)).mp hd)
          ((involves_congr (hjob e hec)).mp he)
  cpu d := by
    by_cases hd : d = c
    · rw [hd]
      exact hon
    · apply (h.cpu d).congr _ (hcpu d hd) (hjob d hd)
      · intro t ht
        apply hother t (h.busy d t ht)
        intro hc
        exact hd (h.one d c t ht hc)
      · intro t ht
        exact h.slot_own t (h.busy d t ht)
  saved t ht hfree := by
    -- The thread is new or `c` has just left it, or it was saved before.
    by_cases hold : t ∉ s.alive ∨ s.Involves c t
    · exact hleft t ht hold (hfree c)
    · rw [not_or, not_not] at hold
      have hsame := hother t hold.1 hold.2
      have hidle : ∀ d, ¬ s.Involves d t := by
        intro d hd
        by_cases hdc : d = c
        · exact hold.2 (hdc ▸ hd)
        · exact hfree d ((involves_congr (hjob d hdc)).mpr hd)
      rw [hsame.own, hsame.ctx]
      exact (h.saved t hold.1 hidle).congr (h.slot_own t hold.1) hsame.mem

/-! ## One step

The cases of `step`: the end of a `swtch`, one of its instructions, anything that a thread does for
itself, a new thread, and a call of `swtch`. -/

/-- A CPU that runs a thread involves this one. -/
theorem involves_run (hj : s.job c = .run t) : s.Involves c u ↔ u = t := by
  rw [Involves, hj]

/-- A CPU in a `swtch` involves both threads. -/
theorem involves_switch {rest : List Instr} {v : τ} (hj : s.job c = .switch t u rest) :
    s.Involves c v ↔ v = t ∨ v = u := by
  rw [Involves, hj]

/-- A thread is involved on one CPU at most. -/
theorem Good.not_other (h : Good slot s ctx) (hc : s.Involves c t) : ∀ d ≠ c, ¬ s.Involves d t :=
  fun d hd hin => hd (h.one d c t hin hc)

variable [DecidableEq ι]

/-- The last instruction of `swtch` was `ret`: the CPU runs the new thread. The old one is saved
now, where its slot says. -/
theorem Good.done (h : Good slot s ctx) (hj : s.job c = .switch t u []) :
    Good slot { s with job := Function.update s.job c (.run u) } ctx := by
  have htc : s.Involves c t := (involves_switch hj).mpr (.inl rfl)
  have huc : s.Involves c u := (involves_switch hj).mpr (.inr rfl)
  have hjob : Function.update s.job c (Job.run u) c = .run u := Function.update_self ..
  have hcpu := h.cpu c
  rw [OnCpu, hj] at hcpu
  apply h.of_step c
  · intro d hd
    rfl
  · intro d hd
    exact Function.update_of_ne hd _ _
  · intro v hv hc
    exact ⟨rfl, fun b hb => rfl, rfl⟩
  · exact h.slot_own
  · exact h.disjoint
  · intro v hv
    exact hv
  · intro v hv
    have hvu : v = u := (involves_run hjob).mp hv
    subst hvu
    exact ⟨h.busy c v huc, h.not_other huc⟩
  · simp only [OnCpu, hjob]
    exact hcpu.2.resumed
  · intro v hv hgone hfree
    rcases hgone with hgone | hgone
    · exact absurd hv hgone
    · rcases (involves_switch hj).mp hgone with rfl | rfl
      · exact hcpu.2.done
      · exact absurd ((involves_run hjob).mpr rfl) hfree

/-- An instruction of `swtch` in the middle of those of other CPUs. It writes bytes of the thread
that is left and reads bytes of the other one, and no other CPU touches either. -/
theorem Good.instr (h : Good slot s ctx) {i : Instr} {rest : List Instr}
    (hj : s.job c = .switch t u (i :: rest)) :
    Good slot { s with
        mem := (i.exec (s.cpu c, s.mem)).2
        cpu := Function.update s.cpu c (i.exec (s.cpu c, s.mem)).1
        job := Function.update s.job c (.switch t u rest) } ctx := by
  have htc : s.Involves c t := (involves_switch hj).mpr (.inl rfl)
  have huc : s.Involves c u := (involves_switch hj).mpr (.inr rfl)
  have ht : t ∈ s.alive := h.busy c t htc
  have hu : u ∈ s.alive := h.busy c u huc
  have hjob : Function.update s.job c (Job.switch t u rest) c = .switch t u rest :=
    Function.update_self ..
  have hcpu := h.cpu c
  rw [OnCpu, hj] at hcpu
  obtain ⟨htu, hswitch⟩ := hcpu
  apply h.of_step c
  · intro d hd
    exact Function.update_of_ne hd _ _
  · intro d hd
    exact Function.update_of_ne hd _ _
  · intro v hv hc
    have hvt : v ≠ t := fun heq => hc ((involves_switch hj).mpr (.inl heq))
    refine ⟨rfl, ?_, rfl⟩
    intro b hb
    have hbt : b ∉ s.own t := Set.disjoint_left.mp (h.disjoint v hv t ht hvt) hb
    exact (hswitch.exec_own (h.slot_own t ht) hbt).symm
  · exact h.slot_own
  · exact h.disjoint
  · intro v hv
    exact hv
  · intro v hv
    rcases (involves_switch hjob).mp hv with rfl | rfl
    · exact ⟨ht, h.not_other htc⟩
    · exact ⟨hu, h.not_other huc⟩
  · simp only [OnCpu, hjob, Function.update_self]
    exact ⟨htu, hswitch.instr (h.slot_own t ht) (h.slot_own u hu) (h.disjoint t ht u hu htu)⟩
  · intro v hv hgone hfree
    rcases hgone with hgone | hgone
    · exact absurd hv hgone
    · exact absurd ((involves_switch hjob).mpr ((involves_switch hj).mp hgone)) hfree

variable [DecidableEq τ]

/-- A thread works, gives memory away or takes what nobody owns. It keeps its slot, and a thread on
another CPU has other bytes. -/
theorem Good.compute (h : Good slot s ctx) (hj : s.job c = .run t) {k : Cpu} {mem : Memory}
    {own : Set UInt64} (hok : s.Allowed slot (.compute c k mem own)) :
    Good slot { s with
        mem := mem
        cpu := Function.update s.cpu c k
        own := Function.update s.own t own } (Function.update ctx t (cpuContext k)) := by
  obtain ⟨hslot, hothers⟩ := hok t hj
  have htc : s.Involves c t := (involves_run hj).mpr rfl
  apply h.of_step c
  · intro d hd
    exact Function.update_of_ne hd _ _
  · intro d hd
    rfl
  · intro u hu hc
    have hut : u ≠ t := fun heq => hc ((involves_run hj).mpr heq)
    refine ⟨Function.update_of_ne hut _ _, ?_, Function.update_of_ne hut _ _⟩
    intro b hb
    exact ((hothers u hut).2 b hb).symm
  · intro u hu
    by_cases hut : u = t
    · subst hut
      simpa using hslot
    · simpa [Function.update_of_ne hut] using h.slot_own u hu
  · intro u hu v hv huv
    by_cases hut : u = t
    · subst hut
      have hvt : v ≠ u := huv.symm
      simpa [Function.update_of_ne hvt] using (hothers v hvt).1
    · by_cases hvt : v = t
      · subst hvt
        simpa [Function.update_of_ne hut] using (hothers u hut).1.symm
      · simpa [Function.update_of_ne hut, Function.update_of_ne hvt] using h.disjoint u hu v hv huv
  · intro u hu
    exact hu
  · intro u hu
    have hut : u = t := (involves_run hj).mp hu
    subst hut
    exact ⟨h.busy c u htc, h.not_other htc⟩
  · simp [OnCpu, hj]
  · intro u hu hold hnew
    rcases hold with hold | hold
    · exact absurd hu hold
    · exact absurd hold hnew

omit [DecidableEq ι] in
/-- A thread is made by another one, which gives it memory with a context. The new thread is one
that is saved: its slot points to that context. -/
theorem Good.create (h : Good slot s ctx) (hj : s.job c = .run t) {v : τ} {own : Set UInt64}
    (hok : s.Allowed slot (.create c v own)) :
    Good slot { s with
        own := Function.update (Function.update s.own t (s.own t \ own)) v own
        alive := insert v s.alive }
      (Function.update ctx v (contextAt s.mem (load64 s.mem (slot v)))) := by
  obtain ⟨hnew, hslot, hframe, hown⟩ := hok
  obtain ⟨hsub, hapart⟩ := hown t hj
  have htc : s.Involves c t := (involves_run hj).mpr rfl
  have ht : t ∈ s.alive := h.busy c t htc
  have hne : ∀ u ∈ s.alive, u ≠ v := by
    rintro u hu rfl
    exact hnew hu
  -- What the threads that were there before own now.
  have hold : ∀ u ∈ s.alive, ∀ b, b ∈ Function.update (Function.update s.own t (s.own t \ own)) v
      own u ↔ b ∈ s.own u ∧ (u = t → b ∉ own) := by
    intro u hu b
    rw [Function.update_of_ne (hne u hu)]
    by_cases hut : u = t
    · subst hut
      simp
    · simp [hut]
  have hdisj : ∀ u ∈ s.alive, Disjoint own
      (Function.update (Function.update s.own t (s.own t \ own)) v own u) := by
    intro u hu
    rw [Set.disjoint_left]
    intro b hb hbu
    obtain ⟨hbu, hbt⟩ := (hold u hu b).mp hbu
    by_cases hut : u = t
    · exact hbt hut hb
    · exact Set.disjoint_left.mp (h.disjoint u hu t ht hut) hbu (hsub hb)
  apply h.of_step c
  · intro d hd
    rfl
  · intro d hd
    rfl
  · intro u hu hc
    have hut : u ≠ t := fun heq => hc ((involves_run hj).mpr heq)
    refine ⟨?_, fun b hb => rfl, Function.update_of_ne (hne u hu) _ _⟩
    ext b
    simp [hold u hu b, hut]
  · intro u hu
    rcases Set.mem_insert_iff.mp hu with rfl | hu
    · simpa using hslot
    · intro b hb
      refine (hold u hu b).mpr ⟨h.slot_own u hu hb, ?_⟩
      rintro rfl hbown
      exact Set.disjoint_left.mp hapart hbown hb
  · intro u hu w hw huw
    rcases Set.mem_insert_iff.mp hu with rfl | hu'
    · rcases Set.mem_insert_iff.mp hw with rfl | hw'
      · exact absurd rfl huw
      · simpa using hdisj w hw'
    · rcases Set.mem_insert_iff.mp hw with rfl | hw'
      · simpa using (hdisj u hu').symm
      · rw [Set.disjoint_left]
        intro b hbu hbw
        exact Set.disjoint_left.mp (h.disjoint u hu' w hw' huw) ((hold u hu' b).mp hbu).1
          ((hold w hw' b).mp hbw).1
  · intro u hu
    exact Set.mem_insert_of_mem _ hu
  · intro u hu
    have hut : u = t := (involves_run hj).mp hu
    subst hut
    exact ⟨Set.mem_insert_of_mem _ ht, h.not_other htc⟩
  · have hcpu := h.cpu c
    rw [OnCpu, hj] at hcpu
    simpa [OnCpu, hj, Function.update_of_ne (hne t ht)] using hcpu
  · intro u hu hgone hfree
    rcases hgone with hgone | hgone
    · have huv : u = v := (Set.mem_insert_iff.mp hu).resolve_right hgone
      subst huv
      refine ⟨?_, ?_⟩
      · simpa using hframe
      · simp
    · exact absurd hgone hfree

/-- A thread calls `swtch` for one that is saved. No other CPU is involved with that one, so from
now on this CPU is. -/
theorem Good.call (h : Good slot s ctx) (hj : s.job c = .run t)
    (hok : s.Allowed slot (.call c u)) :
    Good slot { s with job := Function.update s.job c (.switch t u swtch) }
      (Function.update ctx t (callContext (s.cpu c))) := by
  obtain ⟨hu, hidle, hcall⟩ := hok
  obtain ⟨hx0, hx1, hframe, hapart⟩ := hcall t hj
  have htc : s.Involves c t := (involves_run hj).mpr rfl
  have ht : t ∈ s.alive := h.busy c t htc
  have htu : t ≠ u := by
    rintro rfl
    exact hidle c htc
  have hjob : Function.update s.job c (Job.switch t u swtch) c = .switch t u swtch :=
    Function.update_self ..
  apply h.of_step c
  · intro d hd
    rfl
  · intro d hd
    exact Function.update_of_ne hd _ _
  · intro v hv hc
    have hvt : v ≠ t := fun heq => hc ((involves_run hj).mpr heq)
    exact ⟨rfl, fun b hb => rfl, Function.update_of_ne hvt _ _⟩
  · exact h.slot_own
  · exact h.disjoint
  · intro v hv
    exact hv
  · intro v hv
    rcases (involves_switch hjob).mp hv with rfl | rfl
    · exact ⟨ht, h.not_other htc⟩
    · exact ⟨hu, fun d hd => hidle d⟩
  · simp only [OnCpu, hjob, Function.update_self, Function.update_of_ne htu.symm]
    exact ⟨htu, Switching.call hx0 hx1 hframe hapart (h.slot_own t ht) (h.saved u hu hidle)
      (h.disjoint t ht u hu htu)⟩
  · intro v hv hgone hfree
    rcases hgone with hgone | hgone
    · exact absurd hv hgone
    · have hvt : v = t := (involves_run hj).mp hgone
      exact absurd ((involves_switch hjob).mpr (.inl hvt)) hfree

/-- What a thread that does not act finds as it was: where it goes on, and the memory it owns,
except for the place of a context and the slot. -/
structure Kept (slot : τ → UInt64) (s s' : ThreadSystem ι τ) (x x' : ThreadContext) (t : τ) :
    Prop where
  alive : t ∈ s'.alive
  own : s'.own t = s.own t
  mem : ∀ b ∈ s.own t, b ∉ frameOf x.sp → b ∉ bytesAt (slot t) 8 → s'.mem b = s.mem b
  context : x' = x

/-- The step lemma. Besides the invariant it says that a thread which does not act keeps its bytes
and its context. -/
theorem Good.step (h : Good slot s ctx) (hok : s.Allowed slot a) (hstep : s.step a = some s') :
    ∃ ctx', Good slot s' ctx' ∧
      ∀ t ∈ s.alive, ¬ s.Acts t a → Kept slot s s' (ctx t) (ctx' t) t := by
  cases a with
  | compute c k mem own =>
    cases hj : s.job c with
    | switch t u rest => simp [ThreadSystem.step, hj] at hstep
    | run t =>
      simp only [ThreadSystem.step, hj, Option.some.injEq] at hstep
      subst hstep
      refine ⟨_, h.compute hj hok, ?_⟩
      intro u hu hact
      -- A thread that does not act is another one than `t`.
      have hut : u ≠ t := fun heq => hact (heq ▸ hj)
      refine ⟨hu, Function.update_of_ne hut _ _, ?_, Function.update_of_ne hut _ _⟩
      intro b hb _ _
      exact ((hok t hj).2 u hut).2 b hb
  | create c v own =>
    cases hj : s.job c with
    | switch t u rest => simp [ThreadSystem.step, hj] at hstep
    | run t =>
      simp only [ThreadSystem.step, hj, Option.some.injEq] at hstep
      subst hstep
      refine ⟨_, h.create hj hok, ?_⟩
      intro u hu hact
      have hut : u ≠ t := fun heq => hact (.inl (heq ▸ hj))
      have huv : u ≠ v := fun heq => hact (.inr heq)
      refine ⟨Set.mem_insert_of_mem _ hu, ?_, fun b _ _ _ => rfl, Function.update_of_ne huv _ _⟩
      simp [Function.update_of_ne huv, Function.update_of_ne hut]
  | call c v =>
    cases hj : s.job c with
    | switch t u rest => simp [ThreadSystem.step, hj] at hstep
    | run t =>
      simp only [ThreadSystem.step, hj, Option.some.injEq] at hstep
      subst hstep
      refine ⟨_, h.call hj hok, ?_⟩
      intro u hu hact
      have hut : u ≠ t := fun heq => hact (heq ▸ hj)
      exact ⟨hu, rfl, fun b _ _ _ => rfl, Function.update_of_ne hut _ _⟩
  | instr c =>
    cases hj : s.job c with
    | run t => simp [ThreadSystem.step, hj] at hstep
    | switch t u rest =>
      cases rest with
      | nil =>
        simp only [ThreadSystem.step, hj, Option.some.injEq] at hstep
        subst hstep
        -- The end of `swtch` moves no register and no byte.
        refine ⟨_, h.done hj, ?_⟩
        intro v hv _
        exact ⟨hv, rfl, fun b _ _ _ => rfl, rfl⟩
      | cons i rest =>
        simp only [ThreadSystem.step, hj, Option.some.injEq] at hstep
        subst hstep
        refine ⟨_, h.instr hj, ?_⟩
        have ht : t ∈ s.alive := h.busy c t ((involves_switch hj).mpr (.inl rfl))
        have hcpu := h.cpu c
        rw [OnCpu, hj] at hcpu
        intro v hv _
        refine ⟨hv, rfl, ?_, rfl⟩
        intro b hb hframe hslot
        -- The stores of `swtch` go to the frame and to the slot of the thread that leaves.
        by_cases hvt : v = t
        · subst hvt
          exact hcpu.2.exec_outside hframe hslot
        · apply hcpu.2.exec_own (h.slot_own t ht)
          exact Set.disjoint_left.mp (h.disjoint v hv t ht hvt) hb

/-! ## Runs

The contexts are not a part of the state, so each step gives new ones, and `Kept` composes. -/

/-- The steps in which threads keep to what is allowed. -/
def Run (slot : τ → UInt64) : ThreadSystem ι τ → ThreadSystem ι τ → Prop :=
  Steps (fun s a s' => s.step a = some s') fun s a => s.Allowed slot a

/-- The same, in which the thread `t` does nothing. -/
def RunWithout (slot : τ → UInt64) (t : τ) : ThreadSystem ι τ → ThreadSystem ι τ → Prop :=
  Steps (fun s a s' => s.step a = some s') fun s a => s.Allowed slot a ∧ ¬ s.Acts t a

/-- Every CPU runs the code it was started with, its `main`, and there is no other thread yet. -/
structure Boot (slot : τ → UInt64) (s : ThreadSystem ι τ) (main : ι → τ) : Prop where
  job : ∀ c, s.job c = .run (main c)
  main_inj : Function.Injective main
  alive : s.alive = Set.range main
  slot_own : ∀ t ∈ s.alive, bytesAt (slot t) 8 ⊆ s.own t
  disjoint : ∀ t ∈ s.alive, ∀ u ∈ s.alive, t ≠ u → Disjoint (s.own t) (s.own u)

omit [DecidableEq ι] [DecidableEq τ] in
/-- At first every thread is on its CPU, so that no context is saved and there is nothing to be kept
for later. -/
theorem Boot.good {main : ι → τ} (h : Boot slot s main) : ∃ ctx, Good slot s ctx := by
  have hin : ∀ c t, s.Involves c t ↔ t = main c := fun c t => involves_run (h.job c)
  let ctx : τ → ThreadContext :=
    Function.extend main (fun c => cpuContext (s.cpu c)) fun _ => ⟨[], 0, 0⟩
  refine ⟨ctx, h.slot_own, h.disjoint, ?_, ?_, ?_, ?_⟩
  · intro c t hc
    rw [h.alive, (hin c t).mp hc]
    exact Set.mem_range_self c
  · intro c d t hc hd
    exact h.main_inj (((hin c t).mp hc).symm.trans ((hin d t).mp hd))
  · intro c
    rw [OnCpu, h.job c]
    exact (h.main_inj.extend_apply (fun c => cpuContext (s.cpu c)) _ c).symm
  · intro t ht hidle
    rw [h.alive] at ht
    obtain ⟨c, rfl⟩ := ht
    exact absurd ((hin c _).mpr rfl) (hidle c)

/-- The invariant holds along a run. -/
theorem Good.run (h : Good slot s ctx) (hrun : Run slot s s') : ∃ ctx', Good slot s' ctx' := by
  apply hrun.invariant (I := fun s => ∃ ctx, Good slot s ctx) ⟨ctx, h⟩
  intro u v a hu hok hstep
  obtain ⟨ctx, hgood⟩ := hu
  obtain ⟨ctx', hgood', -⟩ := hgood.step hok hstep
  exact ⟨ctx', hgood'⟩

/-- A thread that does nothing is kept, whatever the others do: its saved context, the slot that
points to it and its memory are as they were. The induction is on the run. -/
theorem Good.runWithout (h : Good slot s ctx) (ht : t ∈ s.alive) (hrun : RunWithout slot t s s') :
    ∃ ctx', Good slot s' ctx' ∧ Kept slot s s' (ctx t) (ctx' t) t := by
  apply hrun.invariant
    (I := fun s' => ∃ ctx', Good slot s' ctx' ∧ Kept slot s s' (ctx t) (ctx' t) t)
  · exact ⟨ctx, h, ht, rfl, fun b _ _ _ => rfl, rfl⟩
  · intro u v a hu hok hstep
    obtain ⟨ctx₁, hgood, hkept⟩ := hu
    obtain ⟨ctx₂, hgood', hsame⟩ := hgood.step hok.1 hstep
    have hnext := hsame t hkept.alive hok.2
    rw [hkept.context] at hnext
    refine ⟨ctx₂, hgood', hnext.alive, hnext.own.trans hkept.own, ?_, hnext.context⟩
    intro b hb hframe hslot
    have hown : b ∈ u.own t := hkept.own ▸ hb
    exact (hnext.mem b hown hframe hslot).trans (hkept.mem b hb hframe hslot)

/-- A thread that calls `swtch` goes on, on whichever CPU takes it up, where `swtch` returns to,
with its registers, its stack pointer and its memory as they were at the call. -/
theorem swtch_resumes {main : ι → τ} {s₀ s s₁ s₂ : ThreadSystem ι τ} {c d : ι} {t u : τ}
    (hboot : Boot slot s₀ main) (hrun : Run slot s₀ s) (hj : s.job c = .run t)
    (hok : s.Allowed slot (.call c u)) (hcall : s.step (.call c u) = some s₁)
    (hrest : RunWithout slot t s₁ s₂) (hd : s₂.job d = .run t) :
    cpuContext (s₂.cpu d) = callContext (s.cpu c) ∧
      ∀ b ∈ s.own t, b ∉ frameOf (s.cpu c).sp → b ∉ bytesAt (slot t) 8 → s₂.mem b = s.mem b := by
  obtain ⟨ctx₀, hgood₀⟩ := hboot.good
  obtain ⟨ctx, hgood⟩ := hgood₀.run hrun
  simp only [ThreadSystem.step, hj, Option.some.injEq] at hcall
  subst hcall
  have hgood₁ := hgood.call hj hok
  have ht : t ∈ s.alive := hgood.busy c t ((involves_run hj).mpr rfl)
  obtain ⟨ctx₂, hgood₂, hkept⟩ := hgood₁.runWithout ht hrest
  have hcontext : ctx₂ t = callContext (s.cpu c) := by
    rw [hkept.context, Function.update_self]
  have hmem := hkept.mem
  have hcpu := hgood₂.cpu d
  rw [OnCpu, hd] at hcpu
  rw [Function.update_self] at hmem
  exact ⟨hcpu.trans hcontext, hmem⟩

/-- A thread that is made starts in the context that its slot points to, with the memory that it was
given. -/
theorem created_starts {main : ι → τ} {s₀ s s₁ s₂ : ThreadSystem ι τ} {c d : ι} {v : τ}
    {own : Set UInt64} (hboot : Boot slot s₀ main) (hrun : Run slot s₀ s)
    (hok : s.Allowed slot (.create c v own)) (hcreate : s.step (.create c v own) = some s₁)
    (hrest : RunWithout slot v s₁ s₂) (hd : s₂.job d = .run v) :
    cpuContext (s₂.cpu d) = contextAt s.mem (load64 s.mem (slot v)) ∧
      ∀ b ∈ own, b ∉ bytesAt (load64 s.mem (slot v)) sizeofContext → b ∉ bytesAt (slot v) 8 →
        s₂.mem b = s.mem b := by
  obtain ⟨ctx₀, hgood₀⟩ := hboot.good
  obtain ⟨ctx, hgood⟩ := hgood₀.run hrun
  cases hj : s.job c with
  | switch t u rest => simp [ThreadSystem.step, hj] at hcreate
  | run t =>
    simp only [ThreadSystem.step, hj, Option.some.injEq] at hcreate
    subst hcreate
    have hgood₁ := hgood.create hj hok
    obtain ⟨ctx₂, hgood₂, hkept⟩ := hgood₁.runWithout (Set.mem_insert v _) hrest
    have hmem := hkept.mem
    have hcpu := hgood₂.cpu d
    have hframe : load64 s.mem (slot v) + 128 - 128 = load64 s.mem (slot v) :=
      UInt64.add_sub_cancel _ _
    rw [OnCpu, hd] at hcpu
    simp only [Function.update_self, contextAt, frameOf, hframe] at hmem
    refine ⟨hcpu.trans ?_, hmem⟩
    rw [hkept.context, Function.update_self]

/-- Nothing keeps a CPU from finishing a `swtch`: the instructions that are left can be executed one
after the other, without a step of any other CPU. -/
theorem runWithout_switch (slot : τ → UInt64) (v : τ) {rest : List Instr}
    (hj : s.job c = .switch t u rest) :
    ∃ s', RunWithout slot v s s' ∧ s'.job c = .run u ∧ s'.own = s.own ∧ s'.alive = s.alive ∧
      (∀ d ≠ c, s'.job d = s.job d) ∧ (s'.cpu c, s'.mem) = execAll rest (s.cpu c, s.mem) := by
  induction rest generalizing s with
  | nil =>
    refine ⟨{ s with job := Function.update s.job c (.run u) }, ?_, Function.update_self .., rfl,
      rfl, fun d hd => Function.update_of_ne hd _ _, rfl⟩
    exact (Steps.refl s).tail (a := .instr c) ⟨trivial, id⟩ (by simp [ThreadSystem.step, hj])
  | cons i rest ih =>
    obtain ⟨s', hrun, hjob, hown, halive, hother, hexec⟩ := ih (s := { s with
        mem := (i.exec (s.cpu c, s.mem)).2
        cpu := Function.update s.cpu c (i.exec (s.cpu c, s.mem)).1
        job := Function.update s.job c (.switch t u rest) }) (Function.update_self ..)
    refine ⟨s', ?_, hjob, hown, halive, ?_, ?_⟩
    · exact Steps.head (a := .instr c) ⟨trivial, id⟩ (by simp [ThreadSystem.step, hj]) hrun
    · intro d hd
      rw [hother d hd]
      exact Function.update_of_ne hd _ _
    · simpa using hexec

/-! ### Two threads -/

/-- The slots of two threads. -/
def twoSlots (t : Bool) : UInt64 := bif t then 0x4100 else 0x100

/-- One CPU, whose thread is about to make a second one with a context at `p`. The first one owns
the low addresses to begin with. -/
def oneThread (mem : Memory) (p : UInt64) : ThreadSystem Unit Bool where
  mem := mem
  cpu _ :=
    { x := fun r => if r = 0 then 0x100 else if r = 1 then p else .ofNat r
      sp := 0x2000, spEl0 := 0, elrEl1 := 0, spsrEl1 := 0, pc := 0, pstate := 0 }
  job _ := .run false
  own t := bif t then ∅ else addrs 0 0x8000
  alive := {false}

/-- The memory of the second thread. -/
def secondOwn : Set UInt64 := addrs 0x4000 0x8000

/-- The first thread has made the second one, and has given it a part of its memory. -/
def twoThreads (mem : Memory) (p : UInt64) : ThreadSystem Unit Bool := { oneThread mem p with
  own := Function.update
    (Function.update (oneThread mem p).own false ((oneThread mem p).own false \ secondOwn)) true
    secondOwn
  alive := insert true (oneThread mem p).alive }

section TwoThreads

variable {mem : Memory} {p : UInt64}

/-- The state before the first step is one: a single CPU runs the first thread, and the memory is
any. -/
theorem boot_oneThread (mem : Memory) (p : UInt64) :
    Boot twoSlots (oneThread mem p) fun _ => false where
  job _ := rfl
  main_inj _ _ _ := rfl
  alive := by
    ext t
    simp [oneThread]
  slot_own := by
    rintro t rfl
    exact bytesAt_subset (by decide) (by decide) (by decide)
  disjoint := by
    rintro t rfl u rfl h
    exact absurd rfl h

/-- The second thread may be made: its frame lies in memory that is its own, and the slot points to
it. -/
theorem allowed_oneThread (hptr : load64 mem 0x4100 = p)
    (hframe : bytesAt p sizeofContext ⊆ secondOwn) :
    (oneThread mem p).Allowed twoSlots (.create () true secondOwn) := by
  refine ⟨by simp [oneThread], bytesAt_subset (by decide) (by decide) (by decide), ?_, ?_⟩
  · show bytesAt (load64 mem 0x4100) sizeofContext ⊆ secondOwn
    rw [hptr]
    exact hframe
  · intro t ht
    obtain rfl : false = t := Job.run.inj ht
    have hslot : bytesAt (twoSlots false) 8 ⊆ addrs 0 0x4000 :=
      bytesAt_subset (by decide) (by decide) (by decide)
    exact ⟨fun a ha => ⟨Nat.zero_le _, ha.2⟩,
      (disjoint_addrs (le_refl _)).symm.mono_right hslot⟩

theorem run_oneThread (hptr : load64 mem 0x4100 = p)
    (hframe : bytesAt p sizeofContext ⊆ secondOwn) :
    Run twoSlots (oneThread mem p) (twoThreads mem p) :=
  (Steps.refl _).tail (allowed_oneThread hptr hframe) rfl

/-- What is left to the first thread. -/
theorem addrs_subset_twoThreads (mem : Memory) (p : UInt64) {lo hi : Nat} (h : hi ≤ 0x4000) :
    addrs lo hi ⊆ (twoThreads mem p).own false := by
  intro a ha
  refine ⟨⟨Nat.zero_le _, lt_of_lt_of_le ha.2 (by omega)⟩, ?_⟩
  exact Set.disjoint_left.mp (disjoint_addrs h) ha

/-- The first thread may call `swtch` for the second one: that one is not running, and its context
is in its slot. -/
theorem allowed_twoThreads (hptr : load64 mem 0x4100 = p) :
    (twoThreads mem p).Allowed twoSlots (.call () true) := by
  refine ⟨Set.mem_insert _ _, ?_, ?_⟩
  · intro d h
    cases h
  · intro t ht
    obtain rfl : false = t := Job.run.inj ht
    have hframe : frameOf 0x2000 ⊆ addrs 0x1f80 0x2000 :=
      bytesAt_subset (by decide) (by decide) (by decide)
    have hslot : bytesAt (twoSlots false) 8 ⊆ addrs 0 0x1f80 :=
      bytesAt_subset (by decide) (by decide) (by decide)
    exact ⟨rfl, hptr.symm, hframe.trans (addrs_subset_twoThreads mem p (by decide)),
      ((disjoint_addrs (le_refl _)).mono hslot hframe).symm⟩

/-- The second thread calls back: it sets up its own call of `swtch` and goes through it. -/
theorem callBack {s : ThreadSystem Unit Bool} (hj : s.job () = .run true) (hfalse : false ∈ s.alive)
    (hdisj : Disjoint secondOwn (s.own false)) :
    ∃ s', RunWithout twoSlots false s s' ∧ s'.job () = .run false := by
  let k : Cpu := { s.cpu () with
    x := fun r => if r = 0 then 0x4100 else load64 s.mem 0x100
    sp := 0x6000 }
  let s' : ThreadSystem Unit Bool := { s with
    cpu := Function.update s.cpu () k
    own := Function.update s.own true secondOwn }
  have hcompute : RunWithout twoSlots false s s' := by
    apply (Steps.refl s).tail (a := .compute () k s.mem secondOwn)
    · refine ⟨?_, by simp [Acts, hj]⟩
      intro t ht
      obtain rfl : true = t := Job.run.inj (hj.symm.trans ht)
      refine ⟨bytesAt_subset (by decide) (by decide) (by decide), ?_⟩
      intro u hu
      obtain rfl : u = false := by simpa using hu
      exact ⟨hdisj, fun a _ => rfl⟩
    · simp [ThreadSystem.step, hj, s']
  have hcall : s'.Allowed twoSlots (.call () false) := by
    refine ⟨hfalse, ?_, ?_⟩
    · intro d h
      rw [Involves, show s'.job d = .run true from hj] at h
      cases h
    · intro t ht
      obtain rfl : true = t := Job.run.inj (hj.symm.trans ht)
      have hframe : frameOf 0x6000 ⊆ addrs 0x5f80 0x6000 :=
        bytesAt_subset (by decide) (by decide) (by decide)
      have hslot : bytesAt (twoSlots true) 8 ⊆ addrs 0x4000 0x5f80 :=
        bytesAt_subset (by decide) (by decide) (by decide)
      refine ⟨rfl, rfl, ?_, ((disjoint_addrs (le_refl _)).mono hslot hframe).symm⟩
      show frameOf 0x6000 ⊆ secondOwn
      exact bytesAt_subset (by decide) (by decide) (by decide)
  let s'' : ThreadSystem Unit Bool := { s' with
    job := Function.update s'.job () (.switch true false swtch) }
  have hcalled : RunWithout twoSlots false s s'' := by
    apply hcompute.tail (a := .call () false) ⟨hcall, ?_⟩
    · simp [ThreadSystem.step, s'', show s'.job () = .run true from hj]
    · simp [Acts, show s'.job () = .run true from hj]
  have hswitch : s''.job () = .switch true false swtch := rfl
  obtain ⟨t, hrun, hjob, -⟩ := runWithout_switch twoSlots false hswitch
  exact ⟨t, hcalled.trans hrun, hjob⟩

/-- The first thread calls `swtch`, and the second one starts. -/
theorem call_twoThreads (mem : Memory) (p : UInt64) (v : Bool) :
    ∃ s₁ : ThreadSystem Unit Bool,
      RunWithout twoSlots v { twoThreads mem p with
        job := Function.update (twoThreads mem p).job () (.switch false true swtch) } s₁ ∧
      s₁.job () = .run true ∧ s₁.own = (twoThreads mem p).own ∧
      s₁.alive = (twoThreads mem p).alive := by
  let s : ThreadSystem Unit Bool := { twoThreads mem p with
    job := Function.update (twoThreads mem p).job () (.switch false true swtch) }
  have hswitch : s.job () = .switch false true swtch := rfl
  obtain ⟨s₁, hrun, hjob, hown, halive, -⟩ := runWithout_switch twoSlots v hswitch
  exact ⟨s₁, hrun, hjob, hown, halive⟩

/-- The first thread calls `swtch` and is called back, with the registers that it had and the memory
that it had. -/
theorem swtch_resumes_two : ∃ s₂ : ThreadSystem Unit Bool, s₂.job () = .run false ∧
    cpuContext (s₂.cpu ()) = callContext ((oneThread (fun _ => 0) 0).cpu ()) ∧
    s₂.mem 0x3000 = 0 := by
  let mem : Memory := store64 (fun _ => 0) 0x4100 0x5000
  have hptr : load64 mem 0x4100 = 0x5000 := load64_store64_self _ _ _
  have hframe : bytesAt 0x5000 sizeofContext ⊆ secondOwn :=
    bytesAt_subset (by decide) (by decide) (by decide)
  obtain ⟨s₁, hrun₁, hjob₁, hown₁, halive₁⟩ := call_twoThreads mem 0x5000 false
  have hdisj : Disjoint secondOwn (s₁.own false) := by
    rw [hown₁]
    exact Set.disjoint_sdiff_right
  have halive : false ∈ s₁.alive := by
    rw [halive₁]
    exact Set.mem_insert_of_mem _ rfl
  obtain ⟨s₂, hrun₂, hjob₂⟩ := callBack hjob₁ halive hdisj
  obtain ⟨hcontext, hmem⟩ := swtch_resumes (boot_oneThread mem 0x5000) (run_oneThread hptr hframe)
    rfl (allowed_twoThreads hptr) rfl (hrun₁.trans hrun₂) hjob₂
  refine ⟨s₂, hjob₂, hcontext, ?_⟩
  have hzero : mem 0x3000 = 0 := store64_outside _ _ (by decide)
  have hnotFrame : ¬ ((0x3000 : UInt64) - (0x2000 - 128)).toNat < 128 := by decide
  have hnotSlot : ¬ ((0x3000 : UInt64) - 0x100).toNat < 8 := by decide
  have hown : (0x3000 : UInt64) ∈ addrs 0 0x4000 := ⟨by decide, by decide⟩
  exact (hmem 0x3000 (addrs_subset_twoThreads mem _ (le_refl _) hown) hnotFrame hnotSlot).trans
    hzero

end TwoThreads

end ThreadSystem

end KernelAarch64.Core
