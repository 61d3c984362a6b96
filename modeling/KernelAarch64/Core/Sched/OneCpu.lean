import KernelAarch64.Core.Sched

/-!
# One CPU for each process

A CPU that executes an entry of a process table has the lock of that entry, and a lock has at most
one owner, so no two CPUs execute one entry. The lock is taken by the scheduler that found the entry
and is given back by it, with any number of switches through the schedulers below it in between. The
invariant (`Inv`) says of every CPU which locks it has by where its code is, and of every context
that waits that some CPU will come back to it. Each step of a scheduler, of a process and of the
code that makes a process keeps it, and `ReachesUndisturbed.one_cpu` follows by induction over the
steps.

There is one gap. `memset` in `alloc_pcb_simple` clears the lock of the entry together with the
rest, `lock.locked` before `lock.cpu`. Between the two the lock is free, and another CPU that takes
it then loses it again (`memset_takes_lock`). The runs of the invariant are those in which this does
not happen. -/

namespace KernelAarch64.Core

open KernelAarch64.Lib KernelAarch64.Common

/-! ## The invariant

`CpuInv` is about one CPU and is mostly about the locks it has: which entry it has locked, and that
behind each entry that it executes a scheduler waits with the lock. `Inv.of_cpu` is the frame: a
step of one CPU concerns the others only through the locks that they have. -/

variable {κ χ : Type}

/-- The tree goes up: an entry by way of which `k` is run is above `k`. -/
theorem SchedTree.Under.depth_lt {T : SchedTree κ} {k : κ} {p : ProcPtr κ} (h : T.Under k p) :
    T.depth p.cont < T.depth k := by
  induction h with
  | here h => exact T.depth_lt _ _ h
  | up h _ ih => exact ih.trans (T.depth_lt _ _ h)

/-- An entry above `k` is the one of `k` or is above the container of this one. -/
theorem SchedTree.Under.cases_p {T : SchedTree κ} {k : κ} {p q : ProcPtr κ} (h : T.Under k p)
    (hq : T.p k = some q) : p = q ∨ T.Under q.cont p := by
  cases h with
  | here h => exact .inl (Option.some.inj (h.symm.trans hq))
  | up h hup =>
    cases h.symm.trans hq
    exact .inr hup

/-- What `struct cpu` says agrees with what the CPU runs. A scheduler that is about to leave says
already what holds one level up. -/
def CpuState.Ok (T : SchedTree κ) (u : CpuState κ χ) : Prop :=
  match u.code with
  | .scheduler k (.sched _) => T.parent k = some u.scheduler ∧ u.proc = T.p k
  | .scheduler k _ => u.scheduler = k ∧ u.proc = T.p k
  | .entry _ => u.proc = T.p u.scheduler
  | .process p _ => u.scheduler = p.cont ∧ u.proc = some p ∧ ∀ k, T.p k ≠ some p

/-- The entries of containers stay what they are, and processes are saved in their own context. -/
structure SchedProc.Ok (T : SchedTree κ) (p : ProcPtr κ) (q : SchedProc κ χ) : Prop where
  tree : ∀ k, T.p k = some p → q.isScheduler = true ∧ q.cont = some k ∧ q.state ≠ .unused
  other : (∀ k, T.p k ≠ some p) → q.isScheduler = false
  saved : ∀ code, q.context = some code → code = .process p (.kernel .ready) ∨ code = .process p .dead

/-- An entry that is no container's stays well formed when a field is cleared. -/
theorem SchedProc.Ok.clear {T : SchedTree κ} {p : ProcPtr κ} {q : SchedProc κ χ} (h : q.Ok T p)
    (hp : ∀ k, T.p k ≠ some p) (field : ProcField) : (q.clear field).Ok T p := by
  refine ⟨fun k hk => absurd hk (hp k), fun hother => ?_, ?_⟩
  · cases field with
    | isScheduler => rfl
    | _ => exact h.other hother
  · intro code hcode
    cases field with
    | context => cases hcode
    | _ => exact h.saved code hcode

/-- Before `lock.locked` the lock is not written. -/
theorem SchedProc.clear_lock {q : SchedProc κ χ} {field : ProcField} (hheld : field.underLock = true)
    (hlast : field ≠ .lockLocked) : (q.clear field).lock = q.lock := by
  cases field with
  | lockLocked => exact absurd rfl hlast
  | lockCpu | lockName => cases hheld
  | _ => rfl

/-- `memset` goes on in the same entry. -/
theorem ProcField.clearing_next {p : ProcPtr κ} {z : ProcPtr κ × ProcField} (field : ProcField)
    (hz : (field.next p).clearing = some z) : z.1 = p := by
  cases field <;> cases hz <;> rfl

/-- The lock is held as long as `memset` has not come to it. -/
theorem ProcField.locked_next {p : ProcPtr κ} (field : ProcField) (hheld : field.underLock = true)
    (hlast : field ≠ .lockLocked) : (field.next p).locked = some p := by
  cases field with
  | lockLocked => exact absurd rfl hlast
  | lockCpu | lockName | bounding => cases hheld
  | _ => rfl

namespace SchedSystem

/-- What a CPU can rely on: behind every entry that it executes there is a scheduler that waits for
control, with the lock of the entry; a scheduler that it is not in is at its beginning or at the
next entry. -/
structure CpuInv (T : SchedTree κ) (s : SchedSystem κ χ) (c : Nat) : Prop where
  ok : (s.cpu c).Ok T
  /-- Behind every entry that the CPU executes there is a scheduler that waits for control to come
  back, and it has the lock of the entry. -/
  exec : ∀ p, (s.cpu c).Executes T p →
    s.context p.cont c = some (.scheduler p.cont (.release p.index true)) ∧
      (s.proc p).lock.Holding c
  idle : ∀ k code, ¬(s.cpu c).Inside T k → s.context k c = some code →
    code = .entry .ready ∨ ∃ i, code = .scheduler k (.next i)
  locked : ∀ p, (s.cpu c).code.locked = some p →
    (s.proc p).lock.Holding c ∧ ¬(s.cpu c).Executes T p
  clearing : ∀ z, (s.cpu c).code.clearing = some z → ∀ k, T.p k ≠ some z.1

structure Inv (T : SchedTree κ) (s : SchedSystem κ χ) : Prop where
  proc : ∀ p, (s.proc p).Ok T p
  cpu : ∀ c, CpuInv T s c

variable {T : SchedTree κ} {s t : SchedSystem κ χ} {c d : Nat} {u : CpuState κ χ}
  {p : ProcPtr κ} {q : SchedProc κ χ}

/-- A step of the CPU `c` concerns the others only by the locks that they have. All step lemmas go
through this or through one of its special cases. -/
theorem Inv.of_cpu (h : Inv T s) (hcpu : ∀ d, d ≠ c → t.cpu d = s.cpu d)
    (hcontext : ∀ k d, d ≠ c → t.context k d = s.context k d)
    (hlock : ∀ p d, d ≠ c → (s.proc p).lock.Holding d → (t.proc p).lock.Holding d)
    (hproc : ∀ p, (t.proc p).Ok T p) (hc : CpuInv T t c) : Inv T t := by
  refine ⟨hproc, fun d => ?_⟩
  by_cases hd : d = c
  · rw [hd]
    exact hc
  · have hinv := h.cpu d
    constructor
    case ok =>
      rw [hcpu d hd]
      exact hinv.ok
    case exec =>
      intro p hp
      rw [hcpu d hd] at hp
      obtain ⟨hback, hholding⟩ := hinv.exec p hp
      exact ⟨(hcontext _ d hd).trans hback, hlock p d hd hholding⟩
    case idle =>
      intro k code hk hcode
      rw [hcpu d hd] at hk
      rw [hcontext k d hd] at hcode
      exact hinv.idle k code hk hcode
    case locked =>
      intro p hp
      rw [hcpu d hd] at hp ⊢
      obtain ⟨hholding, hexec⟩ := hinv.locked p hp
      exact ⟨hlock p d hd hholding, hexec⟩
    case clearing =>
      rw [hcpu d hd]
      exact hinv.clearing

/-- The CPU goes on in the same code: it is at the same level of the container tree, and is the same
process or none as before. -/
structure Same (u v : CpuState κ χ) : Prop where
  level : v.level = u.level
  user : v.code.user = u.code.user

theorem Same.executes {v : CpuState κ χ} (h : Same u v) : v.Executes T p ↔ u.Executes T p := by
  rw [CpuState.Executes, CpuState.Executes, h.level, h.user]

theorem Same.inside {v : CpuState κ χ} (h : Same u v) {k : κ} : v.Inside T k ↔ u.Inside T k := by
  rw [CpuState.Inside, CpuState.Inside, h.level]

/-- A CPU that goes on in the same code relies on the same things. -/
theorem CpuInv.stay (h : CpuInv T s c) (hsame : Same (s.cpu c) (t.cpu c))
    (hcontext : t.context = s.context) (hok : (t.cpu c).Ok T)
    (hexec : ∀ p, (s.cpu c).Executes T p → (t.proc p).lock.Holding c)
    (hlocked : ∀ p, (t.cpu c).code.locked = some p →
      (t.proc p).lock.Holding c ∧ ¬(s.cpu c).Executes T p)
    (hclearing : ∀ z, (t.cpu c).code.clearing = some z → ∀ k, T.p k ≠ some z.1) : CpuInv T t c := by
  refine ⟨hok, ?_, ?_, ?_, hclearing⟩
  · intro p hp
    rw [hsame.executes] at hp
    rw [hcontext]
    exact ⟨(h.exec p hp).1, hexec p hp⟩
  · intro k code hk hcode
    rw [hsame.inside] at hk
    rw [hcontext] at hcode
    exact h.idle k code hk hcode
  · intro p hp
    rw [hsame.executes]
    exact hlocked p hp

@[simp] theorem setCpu_self : (s.setCpu c u).cpu c = u := Function.update_self c _ s.cpu

theorem setCpu_of_ne (h : d ≠ c) : (s.setCpu c u).cpu d = s.cpu d := Function.update_of_ne h _ s.cpu

variable [DecidableEq κ]

@[simp] theorem setProc_self : (s.setProc p q).proc p = q := Function.update_self p _ s.proc

theorem setProc_of_ne {p' : ProcPtr κ} (h : p' ≠ p) : (s.setProc p q).proc p' = s.proc p' :=
  Function.update_of_ne h _ s.proc

/-- What holds of every entry holds after a change of one of them. -/
theorem setProc_forall {P : ProcPtr κ → SchedProc κ χ → Prop} (h : ∀ p, P p (s.proc p))
    (hq : P p q) (p' : ProcPtr κ) : P p' ((s.setProc p q).proc p') := by
  by_cases hp : p' = p
  · rw [hp, setProc_self]
    exact hq
  · rw [setProc_of_ne hp]
    exact h p'

/-- A step that changes one entry. The conditions say that no other CPU loses the lock, that this
one has it if it executes the process, and that the changed entry is in order. -/
theorem Inv.change (h : Inv T s) (hsame : Same (s.cpu c) u) (hok : u.Ok T)
    (hclearing : ∀ z, u.code.clearing = some z → ∀ k, T.p k ≠ some z.1) (hq : q.Ok T p)
    (hothers : ∀ d, d ≠ c → (s.proc p).lock.Holding d → q.lock.Holding d)
    (hmine : (s.cpu c).Executes T p → q.lock.Holding c)
    (hlocked : ∀ p', u.code.locked = some p' →
      ((s.setProc p q).proc p').lock.Holding c ∧ ¬(s.cpu c).Executes T p') :
    Inv T ((s.setProc p q).setCpu c u) := by
  refine h.of_cpu (c := c) (fun d hd => setCpu_of_ne hd) (fun _ _ _ => rfl) ?_
    (setProc_forall h.proc hq) ?_
  · exact setProc_forall
      (P := fun p' q' => ∀ d, d ≠ c → (s.proc p').lock.Holding d → q'.lock.Holding d)
      (fun _ _ _ hholding => hholding) hothers
  · refine (h.cpu c).stay (t := (s.setProc p q).setCpu c u) ?_ rfl ?_ ?_ ?_ ?_
    · rw [setCpu_self]
      exact hsame
    · rw [setCpu_self]
      exact hok
    · exact setProc_forall
        (P := fun p' q' => (s.cpu c).Executes T p' → q'.lock.Holding c)
        (fun p' hp' => ((h.cpu c).exec p' hp').2) hmine
    · rw [setCpu_self]
      exact hlocked
    · rw [setCpu_self]
      exact hclearing

/-- A step that takes no lock, and keeps those that a CPU has. Most places of the code are of this
kind. -/
theorem Inv.goto (h : Inv T s) (hsame : Same (s.cpu c) u) (hok : u.Ok T)
    (hclearing : ∀ z, u.code.clearing = some z → ∀ k, T.p k ≠ some z.1) (hq : q.Ok T p)
    (hlock : ∀ d, (s.proc p).lock.Holding d → q.lock.Holding d)
    (hlocked : ∀ p', u.code.locked = some p' → (s.cpu c).code.locked = some p') :
    Inv T ((s.setProc p q).setCpu c u) := by
  refine h.change hsame hok hclearing hq ?_ ?_ ?_
  · exact fun d _ hholding => hlock d hholding
  · exact fun hp => hlock c ((h.cpu c).exec p hp).2
  · intro p' hp'
    refine ⟨?_, ((h.cpu c).locked p' (hlocked p' hp')).2⟩
    exact setProc_forall (P := fun p' q' => (s.cpu c).code.locked = some p' → q'.lock.Holding c)
      (fun p' hp' => ((h.cpu c).locked p' hp').1)
      (fun hp => hlock c ((h.cpu c).locked p hp).1) p' (hlocked p' hp')

theorem Inv.setCpu (h : Inv T s) (hsame : Same (s.cpu c) u) (hok : u.Ok T)
    (hclearing : ∀ z, u.code.clearing = some z → ∀ k, T.p k ≠ some z.1)
    (hlocked : ∀ p', u.code.locked = some p' → (s.cpu c).code.locked = some p') :
    Inv T (s.setCpu c u) := by
  have hinv := h.goto (p := ⟨T.root, 0⟩) hsame hok hclearing (h.proc _) (fun _ h => h) hlocked
  rwa [SchedSystem.setProc, Function.update_eq_self] at hinv

/-- A step that takes the lock of an entry, which is free. By the invariant no CPU executes the
process of an entry whose lock is free. -/
theorem Inv.acquire (h : Inv T s) (hsame : Same (s.cpu c) u) (hok : u.Ok T)
    (hclearing : ∀ z, u.code.clearing = some z → ∀ k, T.p k ≠ some z.1)
    (hfree : (s.proc p).lock.locked = false) (hlocked : u.code.locked = some p) :
    Inv T ((s.setLock p ((s.proc p).lock.taken c)).setCpu c u) := by
  have hnot : ∀ d, ¬(s.proc p).lock.Holding d := fun d hd =>
    Bool.false_ne_true (hfree.symm.trans hd.1)
  refine h.change hsame hok hclearing ⟨(h.proc p).tree, (h.proc p).other, (h.proc p).saved⟩
    ?_ ?_ ?_
  · exact fun d _ hholding => absurd hholding (hnot d)
  · exact fun _ => SpinLock.taken_holding
  · intro p' hp'
    obtain rfl : p = p' := Option.some.inj (hlocked.symm.trans hp')
    rw [setProc_self]
    exact ⟨SpinLock.taken_holding, fun hexec => hnot c ((h.cpu c).exec p hexec).2⟩

/-- A step that gives up the lock of an entry. -/
theorem Inv.drop (h : Inv T s) (hsame : Same (s.cpu c) u) (hok : u.Ok T)
    (hclearing : ∀ z, u.code.clearing = some z → ∀ k, T.p k ≠ some z.1) (hq : q.Ok T p)
    (hlocked : (s.cpu c).code.locked = some p) (hnone : u.code.locked = none) : Inv T
    ((s.setProc p q).setCpu c u) := by
  obtain ⟨hholding, hexec⟩ := (h.cpu c).locked p hlocked
  refine h.change hsame hok hclearing hq ?_ ?_ ?_
  · exact fun d hd hd' => absurd (hd'.unique hholding) hd
  · exact fun hp => absurd hp hexec
  · intro p' hp'
    rw [hnone] at hp'
    cases hp'

/-! ### Code that makes a process -/

/-- The code of a process, or of a CPU that is not in a scheduler yet. Both may make processes, so
the lemmas about that are for both. -/
def wrap (o : Option (ProcPtr κ)) (pc : KernelPc κ) : Code κ χ :=
  match o with
  | none => .entry pc
  | some p => .process p (.kernel pc)

variable {o : Option (ProcPtr κ)} {pc pc' : KernelPc κ}

omit [DecidableEq κ] in
@[simp] theorem wrap_locked : (wrap o pc : Code κ χ).locked = pc.locked := by cases o <;> rfl

omit [DecidableEq κ] in
/-- The entry that such code is clearing. -/
@[simp] theorem wrap_clearing : (wrap o pc : Code κ χ).clearing = pc.clearing := by cases o <;> rfl

omit [DecidableEq κ] in
/-- Such code goes on at the same place of the tree. -/
theorem wrap_same (hcode : u.code = wrap o pc) : Same u { u with code := wrap o pc' } := by
  cases o <;>
    exact ⟨by simp only [CpuState.level, hcode, wrap], by simp only [hcode, wrap, Code.user]⟩

omit [DecidableEq κ] in
/-- What `struct cpu` says stays right. -/
theorem wrap_ok (h : u.Ok T) (hcode : u.code = wrap o pc) :
    ({ u with code := wrap o pc' } : CpuState κ χ).Ok T := by
  cases o <;> simpa only [CpuState.Ok, hcode, wrap] using h

/-- The code goes on without a lock taken or given up. -/
theorem Inv.kernel_goto (h : Inv T s) (hcode : (s.cpu c).code = wrap o pc) (hq : q.Ok T p)
    (hlock : ∀ d, (s.proc p).lock.Holding d → q.lock.Holding d)
    (hlocked : ∀ p', pc'.locked = some p' → pc.locked = some p')
    (hclearing : ∀ z, pc'.clearing = some z → ∀ k, T.p k ≠ some z.1) :
    Inv T ((s.setProc p q).setCode c (wrap o pc')) := by
  refine h.goto (wrap_same hcode) (wrap_ok (h.cpu c).ok hcode) ?_ hq hlock ?_
  · rwa [wrap_clearing]
  · rw [hcode, wrap_locked, wrap_locked]
    exact hlocked

/-- The code takes the lock of an entry. -/
theorem Inv.kernel_acquire (h : Inv T s) (hcode : (s.cpu c).code = wrap o pc)
    (hfree : (s.proc p).lock.locked = false) (hlocked : pc'.locked = some p)
    (hclearing : pc'.clearing = none) :
    Inv T ((s.setLock p ((s.proc p).lock.taken c)).setCode c (wrap o pc')) := by
  refine h.acquire (wrap_same hcode) (wrap_ok (h.cpu c).ok hcode) ?_ hfree ?_
  · rw [wrap_clearing, hclearing]
    exact fun p' hp' => nomatch hp'
  · rw [wrap_locked, hlocked]

/-- The code gives up the lock of an entry. -/
theorem Inv.kernel_drop (h : Inv T s) (hcode : (s.cpu c).code = wrap o pc) (hq : q.Ok T p)
    (hlocked : pc.locked = some p) (hnone : pc'.locked = none)
    (hclearing : ∀ z, pc'.clearing = some z → ∀ k, T.p k ≠ some z.1) :
    Inv T ((s.setProc p q).setCode c (wrap o pc')) := by
  refine h.drop (wrap_same hcode) (wrap_ok (h.cpu c).ok hcode) ?_ hq ?_ ?_
  · rwa [wrap_clearing]
  · rw [hcode, wrap_locked, hlocked]
  · rw [wrap_locked, hnone]

/-- The code goes on without a look at the entries. -/
theorem Inv.kernel_stay (h : Inv T s) (hcode : (s.cpu c).code = wrap o pc)
    (hlocked : ∀ p', pc'.locked = some p' → pc.locked = some p')
    (hclearing : ∀ z, pc'.clearing = some z → ∀ k, T.p k ≠ some z.1) :
    Inv T (s.setCode c (wrap o pc')) := by
  refine h.setCpu (wrap_same hcode) (wrap_ok (h.cpu c).ok hcode) ?_ ?_
  · rwa [wrap_clearing]
  · rw [hcode, wrap_locked, wrap_locked]
    exact hlocked

omit [DecidableEq κ] in
/-- An entry may get another state. -/
theorem ok_state {state : ProcState} (h : (s.proc p).Ok T p) (hstate : state ≠ .unused) :
    SchedProc.Ok T p { s.proc p with state := state } :=
  ⟨fun k hk => ⟨(h.tree k hk).1, (h.tree k hk).2.1, hstate⟩, h.other, h.saved⟩

omit [DecidableEq κ] in
/-- The lock of an entry may change. -/
theorem ok_lock (l : SpinLock) (h : (s.proc p).Ok T p) :
    SchedProc.Ok T p { s.proc p with lock := l } :=
  ⟨h.tree, h.other, h.saved⟩

/-- The step lemma for the code that makes a process, with one case for each of its lines. Where the
lock is cleared, the condition says that nobody has it. -/
theorem Inv.kernelStep {r : SchedSystem κ χ × KernelPc κ} (h : Inv T s)
    (hcode : (s.cpu c).code = wrap o pc)
    (hfree : ∀ p, pc.clearing = some (p, .lockCpu) → (s.proc p).lock.locked = false)
    (hstep : s.kernelStep c pc = .ok r) :
    Inv T (r.1.setCode c (wrap o r.2)) := by
  have hnolock : ∀ p' : ProcPtr κ, none = some p' → pc.locked = some p' := fun _ hp => nomatch hp
  have hnoclear : ∀ z : ProcPtr κ × ProcField, none = some z → ∀ k, T.p k ≠ some z.1 :=
    fun _ hz => nomatch hz
  cases pc <;> rw [SchedSystem.kernelStep] at hstep
  -- An assignment to `state` that is not `UNUSED` concerns no other field.
  case wake p =>
    cases hstep
    exact h.kernel_goto hcode (ok_state (h.proc p) (by decide)) (fun _ h => h) hnolock hnoclear
  case allocTry p =>
    split at hstep
    · split at hstep
      · cases hstep
        exact h.kernel_stay hcode hnolock hnoclear
      · cases hstep
    · next hfree =>
      cases hstep
      exact h.kernel_acquire hcode (by simpa using hfree) rfl rfl
  case allocLook p =>
    split at hstep
    · next hunused =>
      cases hstep
      refine h.kernel_stay hcode (fun p' hp' => hp') ?_
      -- A scheduler's entry is in use, so the unused one that is found belongs to none.
      intro p' hp' k hk
      cases hp'
      exact ((h.proc p).tree k hk).2.2 hunused
    · cases hstep
      exact h.kernel_stay hcode (fun p' hp' => hp') hnoclear
  case allocRelease p =>
    obtain ⟨-, -, hstep⟩ := bind_eq_ok.mp hstep
    dsimp only at hstep
    split at hstep
    · cases hstep
      exact h.kernel_drop hcode (ok_lock _ (h.proc p)) rfl rfl hnoclear
    · cases hstep
  case allocClear p field =>
    have hp := (h.cpu c).clearing (p, field) (by rw [hcode, wrap_clearing]; rfl)
    have hq := (h.proc p).clear hp field
    have hnext : ∀ z, (field.next p : KernelPc κ).clearing = some z → ∀ k, T.p k ≠ some z.1 := by
      intro z hz
      obtain rfl := field.clearing_next hz
      exact hp
    cases hstep
    by_cases hheld : field.underLock = true
    · by_cases hlast : field = .lockLocked
      · -- the store that gives up the lock
        subst hlast
        exact h.kernel_drop hcode hq rfl rfl hnext
      · refine h.kernel_goto hcode hq ?_ ?_ hnext
        · intro d hd
          -- The lock is still held, so who has it has not changed.
          rwa [SchedProc.clear_lock hheld hlast]
        · rw [field.locked_next hheld hlast]
          intro p' hp'
          rw [KernelPc.locked, if_pos hheld]
          exact hp'
    · -- the lock is not the one it was, and it is free if `lock.cpu` is stored to
      refine h.kernel_goto hcode hq ?_ ?_ hnext
      · intro d hd
        cases field with
        | lockCpu => exact absurd hd.1 (by rw [hfree p rfl]; decide)
        | lockName => exact hd
        | bounding => exact hd
        | _ => exact absurd rfl hheld
      · cases field with
        | lockCpu | lockName | bounding => exact fun p' hp' => nomatch hp'
        | _ => exact absurd rfl hheld
  case allocState p =>
    cases hstep
    exact h.kernel_goto hcode (ok_state (h.proc p) (by decide)) (fun _ h => h) hnolock hnoclear
  case initAcquire p =>
    obtain ⟨-, -, hstep⟩ := bind_eq_ok.mp hstep
    split at hstep
    · cases hstep
    · next hfree =>
      cases hstep
      exact h.kernel_acquire hcode (by simpa using hfree) rfl rfl
  case initContext p =>
    cases hstep
    refine h.kernel_goto hcode ⟨(h.proc p).tree, (h.proc p).other, ?_⟩ (fun _ h => h)
      (fun p' hp' => hp') hnoclear
    intro code hcontext
    -- The new context is that of a process that has not run yet.
    exact .inl (Option.some.inj hcontext).symm
  case initRelease p =>
    obtain ⟨-, -, hstep⟩ := bind_eq_ok.mp hstep
    cases hstep
    exact h.kernel_drop hcode (ok_lock _ (h.proc p)) rfl rfl hnoclear
  case startAcquire p =>
    obtain ⟨-, -, hstep⟩ := bind_eq_ok.mp hstep
    split at hstep
    · cases hstep
    · next hfree =>
      cases hstep
      exact h.kernel_acquire hcode (by simpa using hfree) rfl rfl
  case startState p =>
    cases hstep
    exact h.kernel_goto hcode (ok_state (h.proc p) (by decide)) (fun _ h => h) (fun p' hp' => hp') hnoclear
  case startRelease p =>
    obtain ⟨-, -, hstep⟩ := bind_eq_ok.mp hstep
    cases hstep
    exact h.kernel_drop hcode (ok_lock _ (h.proc p)) rfl rfl hnoclear
  case ready => cases hstep

/-- The same for the code of a process that may also call something else. -/
theorem Inv.kernelAct [DecidableEq χ] {r : SchedSystem κ χ × KernelPc κ} {a : SchedAct κ χ}
    (h : Inv T s) (hcode : (s.cpu c).code = wrap o pc)
    (hfree : ∀ p, pc.clearing = some (p, .lockCpu) → (s.proc p).lock.locked = false)
    (hstep : s.kernelAct c pc a = .ok r) :
    Inv T (r.1.setCode c (wrap o r.2)) := by
  have hnolock : ∀ p' : ProcPtr κ, none = some p' → pc.locked = some p' := fun _ hp => nomatch hp
  have hnoclear : ∀ z : ProcPtr κ × ProcField, none = some z → ∀ k, T.p k ≠ some z.1 :=
    fun _ hz => nomatch hz
  unfold SchedSystem.kernelAct at hstep
  split at hstep
  · split at hstep
    · cases hstep
      exact h.kernel_stay hcode hnolock hnoclear
    · cases hstep
      exact h.kernel_stay hcode hnolock hnoclear
  · cases hstep
    exact h.kernel_stay hcode hnolock hnoclear
  · exact h.kernelStep hcode hfree hstep
  · cases hstep

/-! ### Switches -/

omit [DecidableEq κ] in
/-- Control is back in the scheduler that runs `p`. Below it nothing is executed any more, and what
is executed above is as it was. -/
theorem CpuInv.returned (h : CpuInv T s c) (hp : (s.cpu c).Executes T p)
    (hcpu : t.cpu c = ⟨p.cont, T.p p.cont, .scheduler p.cont (.release p.index true)⟩)
    (hup : ∀ p', T.Under p.cont p' → (s.cpu c).Executes T p')
    (hlock : ∀ p', (t.proc p').lock = (s.proc p').lock)
    (hcontext : ∀ p', T.Under p.cont p' → t.context p'.cont c = s.context p'.cont c)
    (hidle : ∀ k code, k ≠ p.cont → (∀ p', T.Under p.cont p' → p'.cont ≠ k) →
      t.context k c = some code → code = .entry .ready ∨ ∃ i, code = .scheduler k (.next i)) :
    CpuInv T t c := by
  have hexec : ∀ p', (t.cpu c).Executes T p' ↔ T.Under p.cont p' := by
    intro p'
    rw [hcpu]
    exact ⟨fun hp' => hp'.resolve_left (fun huser => nomatch huser), .inr⟩
  constructor
  case ok =>
    rw [hcpu]
    exact ⟨rfl, rfl⟩
  case exec =>
    intro p' hp'
    rw [hexec] at hp'
    rw [hcontext p' hp', hlock]
    exact h.exec p' (hup p' hp')
  case idle =>
    intro k code hk hcode
    rw [hcpu] at hk
    refine hidle k code (fun hkp => hk (.inl hkp)) ?_ hcode
    exact fun p' hp' hk' => hk (.inr ⟨p', hp', hk'⟩)
  case locked =>
    intro p' hp'
    rw [hcpu] at hp'
    cases hp'
    rw [hexec, hlock]
    exact ⟨(h.exec p hp).2, fun hunder => absurd hunder.depth_lt (lt_irrefl _)⟩
  case clearing =>
    intro p' hp'
    rw [hcpu] at hp'
    cases hp'

omit [DecidableEq κ] in
/-- Of two assignments to a CPU the later counts. -/
theorem setCpu_setCpu {v : CpuState κ χ} : (s.setCpu c u).setCpu c v = s.setCpu c v := by
  simp [setCpu]

omit [DecidableEq κ] in
/-- The entries are no part of a CPU. -/
@[simp] theorem setCpu_proc : (s.setCpu c u).proc = s.proc := rfl

omit [DecidableEq κ] in
/-- The saved contexts are no part of a CPU. -/
@[simp] theorem setCpu_context : (s.setCpu c u).context = s.context := rfl

/-- What `sched` does for a process ... -/
theorem schedSimple_process {code back : Code κ χ} (hproc : (s.cpu c).proc = some p)
    (hnot : (s.proc p).isScheduler = false)
    (hback : s.context (s.cpu c).scheduler c = some back) :
    schedSimple T s c code = .ok ((s.setProc p { s.proc p with context := some code }).setCpu c
      ⟨(s.cpu c).scheduler, T.p (s.cpu c).scheduler, back⟩) := by
  rw [schedSimple, hproc]
  show (if (s.proc p).isScheduler then _ else resume _ c (s.context (s.cpu c).scheduler c)) = _
  rw [if_neg (by rw [hnot]; decide), hback]
  apply congrArg Except.ok
  exact (congrArg (setCpu _ c) (by rw [setProc, setCpu_self])).trans
    (setCpu_setCpu (s := s.setProc p { s.proc p with context := some code }))

/-- ... and for a scheduler. -/
theorem schedSimple_scheduler {code back : Code κ χ} {k : κ} (hproc : (s.cpu c).proc = some p)
    (his : (s.proc p).isScheduler = true) (hcont : (s.proc p).cont = some k)
    (hback : s.context (s.cpu c).scheduler c = some back) :
    schedSimple T s c code = .ok ((s.setContext k c code).setCpu c
      ⟨(s.cpu c).scheduler, T.p (s.cpu c).scheduler, back⟩) := by
  simp only [schedSimple, hproc, setCpu_proc, setCpu_context, his, hcont, hback, resume, if_true]
  apply congrArg Except.ok
  exact (congrArg (setCpu _ c) (by rw [setContext, setCpu_self])).trans
    (setCpu_setCpu (s := s.setContext k c code))

omit [DecidableEq κ] in
/-- What `struct cpu` says is right for the code that the CPU runs. -/
theorem Inv.ok_code (h : Inv T s) {code : Code κ χ} (hcode : (s.cpu c).code = code) :
    CpuState.Ok T ⟨(s.cpu c).scheduler, (s.cpu c).proc, code⟩ :=
  hcode ▸ (h.cpu c).ok

omit [DecidableEq κ] in
/-- A process is at the level of its container. -/
theorem level_process {pc : ProcPc κ χ} (hcode : u.code = .process p pc) : u.level = p.cont := by
  rw [CpuState.level, hcode]

omit [DecidableEq κ] in
/-- A scheduler is at the level of its container. -/
theorem level_scheduler {k : κ} {pc : SchedPc} (hcode : u.code = .scheduler k pc) :
    u.level = k := by
  rw [CpuState.level, hcode]

/-- `sched` of a process: control goes back to the scheduler that runs it, where the lock is given
back. The context of the process is the place it goes on at. -/
theorem Inv.sched_process {pc : ProcPc κ χ} {code : Code κ χ} (h : Inv T s)
    (hcode : (s.cpu c).code = .process p pc)
    (hsaved : code = .process p (.kernel .ready) ∨ code = .process p .dead)
    (hstep : schedSimple T s c code = .ok t) : Inv T t := by
  obtain ⟨hscheduler, hproc, hnot⟩ := h.ok_code hcode
  dsimp only at hscheduler hproc
  have hlevel := level_process hcode
  have hexec : (s.cpu c).Executes T p := .inl (by rw [hcode]; rfl)
  have hback := ((h.cpu c).exec p hexec).1
  rw [schedSimple_process hproc ((h.proc p).other hnot) (hscheduler ▸ hback), hscheduler] at hstep
  cases hstep
  have hlock : ∀ p', ((s.setProc p { s.proc p with context := some code }).proc p').lock =
      (s.proc p').lock :=
    setProc_forall (P := fun p' q' => q'.lock = (s.proc p').lock) (fun _ => rfl) rfl
  refine h.of_cpu (c := c) (fun d hd => setCpu_of_ne hd) (fun _ _ _ => rfl) ?_ ?_ ?_
  · exact fun p' d _ hholding => (congrArg (SpinLock.Holding · d) (hlock p')).mpr hholding
  · exact setProc_forall (P := fun p' q' => SchedProc.Ok T p' q') h.proc
      ⟨(h.proc p).tree, (h.proc p).other, fun code' hcode' => Option.some.inj hcode' ▸ hsaved⟩
  · refine (h.cpu c).returned hexec setCpu_self ?_ hlock (fun _ _ => rfl) ?_
    · exact fun p' hp' => .inr (hlevel ▸ hp')
    · intro k code' hk hup hcode'
      refine (h.cpu c).idle k code' ?_ hcode'
      intro hinside
      rw [CpuState.Inside, hlevel] at hinside
      rcases hinside with rfl | ⟨p', hp', rfl⟩
      · exact hk rfl
      · exact hup p' hp' rfl

theorem setContext_self {k : κ} {code : Code κ χ} :
    (s.setContext k c code).context k c = some code :=
  if_pos ⟨rfl, rfl⟩

theorem setContext_of_ne {k l : κ} {code : Code κ χ} (h : l ≠ k ∨ d ≠ c) :
    (s.setContext k c code).context l d = s.context l d :=
  if_neg fun heq => h.elim (· heq.1) (· heq.2)

/-- `sched` of a scheduler: control goes back to the scheduler above, which gives back the lock of
the entry for this one. This scheduler goes on with its next entry on the same CPU later. -/
theorem Inv.sched_scheduler {k : κ} {i : Fin nproc} (h : Inv T s)
    (hcode : (s.cpu c).code = .scheduler k (.sched i))
    (hstep : schedSimple T s c (.scheduler k (.next (i + 1))) = .ok t) : Inv T t := by
  obtain ⟨hparent, hproc⟩ := h.ok_code hcode
  dsimp only at hparent hproc
  have hlevel := level_scheduler hcode
  -- the entry by way of which the scheduler is run
  rw [T.parent_eq, Option.map_eq_some_iff] at hparent
  obtain ⟨p, hp, hscheduler⟩ := hparent
  rw [hp] at hproc
  have hexec : (s.cpu c).Executes T p := .inr (hlevel ▸ .here hp)
  have hback := ((h.cpu c).exec p hexec).1
  obtain ⟨his, hcont, -⟩ := (h.proc p).tree k hp
  rw [schedSimple_scheduler hproc his hcont (hscheduler ▸ hback), ← hscheduler] at hstep
  cases hstep
  have hdepth : ∀ p', T.Under p.cont p' → p'.cont ≠ k := by
    intro p' hp' hk
    have hlt := hp'.depth_lt.trans (T.depth_lt k p hp)
    rw [hk] at hlt
    exact lt_irrefl _ hlt
  refine h.of_cpu (c := c) (fun d hd => setCpu_of_ne hd) ?_ (fun _ _ _ hholding => hholding) h.proc ?_
  · exact fun l d hd => setContext_of_ne (.inr hd)
  · refine (h.cpu c).returned hexec setCpu_self ?_ (fun _ => rfl) ?_ ?_
    · exact fun p' hp' => .inr (hlevel ▸ .up hp hp')
    · exact fun p' hp' => setContext_of_ne (.inl (hdepth p' hp'))
    · intro l code' hl hup hcode'
      by_cases hlk : l = k
      · rw [hlk] at hcode' ⊢
        rw [setCpu_context, setContext_self] at hcode'
        exact .inr ⟨i + 1, (Option.some.inj hcode').symm⟩
      · rw [setCpu_context, setContext_of_ne (.inl hlk)] at hcode'
        refine (h.cpu c).idle l code' ?_ hcode'
        intro hinside
        rw [CpuState.Inside, hlevel] at hinside
        rcases hinside with hlevel' | ⟨p', hp', rfl⟩
        · exact hlk hlevel'
        · rcases hp'.cases_p hp with rfl | hp'
          · exact hl rfl
          · exact hup p' hp' rfl

/-- Control goes from the scheduler of `k` to the code behind its entry `i`. The CPU executes one
entry more, and has its lock from the scheduler. -/
theorem Inv.entered {k : κ} {i : Fin nproc} (h : Inv T s)
    (hcode : (s.cpu c).code = .scheduler k (.dispatch i)) (hok : u.Ok T)
    (hlocked : u.code.locked = none) (hclearing : u.code.clearing = none)
    (hexec : ∀ p, u.Executes T p ↔ p = ⟨k, i⟩ ∨ T.Under k p)
    (hinside : ∀ l, (s.cpu c).Inside T l → u.Inside T l) :
    Inv T ((s.setContext k c (.scheduler k (.release i true))).setCpu c u) := by
  have hlevel := level_scheduler hcode
  obtain ⟨hholding, -⟩ := (h.cpu c).locked ⟨k, i⟩ (by rw [hcode]; rfl)
  refine h.of_cpu (c := c) (fun d hd => setCpu_of_ne hd) ?_ (fun _ _ _ hholding => hholding) h.proc ?_
  · exact fun l d hd => setContext_of_ne (.inr hd)
  · constructor <;> rw [setCpu_self]
    case ok => exact hok
    case exec =>
      intro p hp
      rcases (hexec p).mp hp with rfl | hp
      · exact ⟨setContext_self, hholding⟩
      · have hne : p.cont ≠ k := fun hpk => absurd hp.depth_lt (hpk ▸ lt_irrefl _)
        rw [setCpu_context, setContext_of_ne (.inl hne)]
        exact (h.cpu c).exec p (.inr (hlevel ▸ hp))
    case idle =>
      intro l code hl hcontext
      have hl' : ¬(s.cpu c).Inside T l := fun hl' => hl (hinside l hl')
      have hne : l ≠ k := fun hlk => hl' (.inl (hlk.trans hlevel.symm))
      rw [setCpu_context, setContext_of_ne (.inl hne)] at hcontext
      exact (h.cpu c).idle l code hl' hcontext
    case locked =>
      intro p hp
      rw [hlocked] at hp
      cases hp
    case clearing =>
      intro p hp
      rw [hclearing] at hp
      cases hp

omit [DecidableEq κ] in
/-- A switch that succeeds has a context to go to. -/
theorem resume_eq_ok {code : Option (Code κ χ)} (h : s.resume c code = .ok t) :
    ∃ code', code = some code' ∧ t = s.setCode c code' := by
  cases code with
  | none => cases h
  | some code' =>
    cases h
    exact ⟨code', rfl, rfl⟩

theorem switch_eq {k : κ} {back code : Code κ χ} :
    ((s.setCpu c u).setContext k c back).setCode c code =
      (s.setContext k c back).setCpu c { u with code := code } := by
  have hself : ((s.setCpu c u).setContext k c back).cpu c = u := setCpu_self
  rw [setCode, hself]
  exact setCpu_setCpu (s := s.setContext k c back)

/-- `swtch` to a process. The CPU has had the lock of its entry since it found it runnable, and so
no other CPU executes it. -/
theorem Inv.dispatch_process {k : κ} {i : Fin nproc} (h : Inv T s)
    (hcode : (s.cpu c).code = .scheduler k (.dispatch i))
    (hnot : (s.proc ⟨k, i⟩).isScheduler = false) {code : Code κ χ}
    (hcontext : (s.proc ⟨k, i⟩).context = some code) :
    Inv T ((s.setContext k c (.scheduler k (.release i true))).setCpu c
      ⟨(s.cpu c).scheduler, some ⟨k, i⟩, code⟩) := by
  obtain ⟨hscheduler, -⟩ := h.ok_code hcode
  have hlevel := level_scheduler hcode
  have hother : ∀ l, T.p l ≠ some ⟨k, i⟩ := fun l hl =>
    Bool.false_ne_true (hnot.symm.trans ((h.proc _).tree l hl).1)
  obtain ⟨pc, rfl, hpc⟩ : ∃ pc, code = .process ⟨k, i⟩ pc ∧ (pc = .kernel .ready ∨ pc = .dead) := by
    rcases (h.proc _).saved code hcontext with rfl | rfl
    · exact ⟨_, rfl, .inl rfl⟩
    · exact ⟨_, rfl, .inr rfl⟩
  refine h.entered hcode ⟨hscheduler, rfl, hother⟩ ?_ ?_ ?_ ?_
  · rcases hpc with rfl | rfl <;> rfl
  · rcases hpc with rfl | rfl <;> rfl
  · intro p
    apply or_congr_left
    exact ⟨fun hp => (Option.some.inj hp).symm, fun hp => congrArg some hp.symm⟩
  · intro l hl
    rw [CpuState.Inside, hlevel] at hl
    exact hl

/-- `swtch` to the scheduler of a container, which goes on where it was on this CPU: at its
beginning or at the next entry. -/
theorem Inv.dispatch_scheduler {k l : κ} {i : Fin nproc} (h : Inv T s)
    (hcode : (s.cpu c).code = .scheduler k (.dispatch i))
    (his : (s.proc ⟨k, i⟩).isScheduler = true) (hcont : (s.proc ⟨k, i⟩).cont = some l)
    {code : Code κ χ} (hcontext : s.context l c = some code) :
    Inv T ((s.setContext k c (.scheduler k (.release i true))).setCpu c
      ⟨l, some ⟨k, i⟩, code⟩) := by
  have hlevel := level_scheduler hcode
  -- the entry is that of the container
  have hp : T.p l = some ⟨k, i⟩ := by
    by_cases hex : ∃ m, T.p m = some ⟨k, i⟩
    · obtain ⟨m, hm⟩ := hex
      obtain rfl : m = l := Option.some.inj (((h.proc _).tree m hm).2.1.symm.trans hcont)
      exact hm
    · have hnot := (h.proc ⟨k, i⟩).other fun m hm => hex ⟨m, hm⟩
      exact absurd his (hnot ▸ Bool.false_ne_true)
  have hdepth := T.depth_lt l _ hp
  have hout : ¬(s.cpu c).Inside T l := by
    intro hinside
    rw [CpuState.Inside, hlevel] at hinside
    rcases hinside with rfl | ⟨p, hunder, rfl⟩
    · exact lt_irrefl _ hdepth
    · exact lt_irrefl _ (hdepth.trans hunder.depth_lt)
  have hunder : ∀ p, T.Under l p ↔ p = ⟨k, i⟩ ∨ T.Under k p := by
    refine fun p => ⟨fun hup => hup.cases_p hp, fun hor => ?_⟩
    rcases hor with rfl | hup
    · exact .here hp
    · exact .up hp hup
  have hinside : ∀ m, (s.cpu c).Inside T m → ∃ p, T.Under l p ∧ p.cont = m := by
    intro m hm
    rw [CpuState.Inside, hlevel] at hm
    rcases hm with rfl | ⟨p, hup, rfl⟩
    · exact ⟨_, .here hp, rfl⟩
    · exact ⟨p, .up hp hup, rfl⟩
  rcases (h.cpu c).idle l code hout hcontext with rfl | ⟨j, rfl⟩
  · refine h.entered hcode hp.symm rfl rfl (fun p => ?_) fun m hm => .inr (hinside m hm)
    exact (or_iff_right fun huser => nomatch huser).trans (hunder p)
  · refine h.entered hcode ⟨rfl, hp.symm⟩ rfl rfl (fun p => ?_) fun m hm => .inr (hinside m hm)
    exact (or_iff_right fun huser => nomatch huser).trans (hunder p)

/-! ### Steps -/

omit [DecidableEq κ] in
/-- A step of a scheduler that is not a switch keeps the CPU where it is. -/
theorem same_scheduler {k l : κ} {pc pc' : SchedPc} (hcode : u.code = .scheduler k pc) :
    Same u ⟨l, u.proc, .scheduler k pc'⟩ :=
  ⟨by simp only [CpuState.level, hcode], by rw [hcode]; rfl⟩

/-- The scheduler goes on without a look at the entries. -/
theorem Inv.scheduler_stay {k : κ} {pc pc' : SchedPc} (h : Inv T s)
    (hcode : (s.cpu c).code = .scheduler k pc)
    (hok : ({ s.cpu c with code := .scheduler k pc' } : CpuState κ χ).Ok T)
    (hlocked : ∀ i, pc'.locked = some i → pc.locked = some i) :
    Inv T (s.setCode c (.scheduler k pc')) := by
  apply h.setCpu (same_scheduler hcode) hok (fun _ hp => nomatch hp)
  intro p' hp'
  obtain ⟨i, hi, rfl⟩ := Option.map_eq_some_iff.mp hp'
  rw [hcode]
  exact Option.map_eq_some_iff.mpr ⟨i, hlocked i hi, rfl⟩

/-- The step lemma for schedulers, with one case for each of their lines. The release passes its
check because the scheduler holds the lock, which is what the invariant is for. -/
theorem Inv.schedulerStep {k : κ} {pc : SchedPc} (h : Inv T s)
    (hcode : (s.cpu c).code = .scheduler k pc) (hstep : s.schedulerStep T c k pc = .ok t) :
    Inv T t := by
  have hok := h.ok_code hcode
  have hnoclear : ∀ z : ProcPtr κ × ProcField, none = some z → ∀ k, T.p k ≠ some z.1 :=
    fun _ hz => nomatch hz
  cases pc <;> rw [SchedSystem.schedulerStep] at hstep
  case next i =>
    split at hstep
    · cases hstep
      exact h.scheduler_stay hcode hok fun _ hi => nomatch hi
    · next hfree =>
      cases hstep
      exact h.acquire (same_scheduler hcode) hok hnoclear (by simpa using hfree) rfl
  case bound i =>
    split at hstep
    · cases hstep
      exact h.scheduler_stay hcode hok fun _ hi => hi
    · cases hstep
      exact h.scheduler_stay hcode hok fun _ hi => hi
  case look i =>
    split at hstep
    · cases hstep
      exact h.scheduler_stay hcode hok fun _ hi => hi
    · cases hstep
      exact h.scheduler_stay hcode hok fun _ hi => hi
  case mark i =>
    split at hstep
    · cases hstep
      exact h.scheduler_stay hcode hok fun _ hi => hi
    · cases hstep
      refine h.goto (same_scheduler hcode) hok hnoclear (ok_state (h.proc _) (by decide)) (fun _ h => h) ?_
      intro p' hp'
      rw [hcode]
      exact hp'
  -- The entry is that of a process or that of the scheduler of another container.
  case dispatch i =>
    split at hstep
    · next his =>
      split at hstep
      · cases hstep
      · next l hcont =>
        obtain ⟨code, hcontext, rfl⟩ := resume_eq_ok hstep
        rw [switch_eq]
        exact h.dispatch_scheduler hcode his hcont hcontext
    · next hnot =>
      obtain ⟨code, hcontext, rfl⟩ := resume_eq_ok hstep
      rw [switch_eq]
      exact h.dispatch_process hcode (by simpa using hnot) hcontext
  -- The lock is given back with the entry in any state.
  case release i hasRun =>
    obtain ⟨-, -, hstep⟩ := bind_eq_ok.mp hstep
    cases hstep
    refine h.drop (same_scheduler hcode) ?_ hnoclear (ok_lock _ (h.proc _)) (by rw [hcode]; rfl) ?_
    · cases hasRun <;> exact hok
    · cases hasRun <;> rfl
  case yieldUp i =>
    split at hstep
    · cases hstep
      exact h.scheduler_stay hcode hok fun _ hi => nomatch hi
    · next l hparent =>
      split at hstep
      · cases hstep
      · next p hproc =>
        cases hstep
        refine h.goto ?_ ?_ hnoclear (ok_state (h.proc p) (by decide)) (fun _ h => h) fun _ hp => nomatch hp
        · exact same_scheduler hcode
        · exact ⟨hparent, hok.2⟩
  case sched i => exact h.sched_scheduler hcode hstep

omit [DecidableEq κ] in
/-- A step of a process that is not a switch keeps the CPU where it is. -/
theorem same_process {pc pc' : ProcPc κ χ} (hcode : u.code = .process p pc) :
    Same u { u with code := .process p pc' } :=
  ⟨by simp only [CpuState.level, hcode], by rw [hcode]; rfl⟩

variable [DecidableEq χ]

/-- The step lemma for processes: the two stores before `sched`, `sched` itself, and the code that
makes other processes. -/
theorem Inv.processStep {pc : ProcPc κ χ} {a : SchedAct κ χ} (h : Inv T s)
    (hcode : (s.cpu c).code = .process p pc) (hfree : s.ClearsFreeLock (c, a))
    (hstep : s.processStep T c p pc a = .ok t) : Inv T t := by
  have hok := h.ok_code hcode
  have hnoclear : ∀ z : ProcPtr κ × ProcField, none = some z → ∀ k, T.p k ≠ some z.1 :=
    fun _ hz => nomatch hz
  have hnolock : ∀ p' : ProcPtr κ, none = some p' → (s.cpu c).code.locked = some p' :=
    fun _ hp => nomatch hp
  unfold SchedSystem.processStep at hstep
  split at hstep
  case h_1 q pause =>
    cases hstep
    have hstate : pause.state ≠ .unused := by cases pause <;> exact ProcState.noConfusion
    refine h.goto (same_process hcode) hok ?_ (ok_state (h.proc q) hstate) (fun _ h => h) ?_
    · cases pause <;> exact hnoclear
    · cases pause <;> exact hnolock
  case h_2 q chan =>
    cases hstep
    exact h.goto (same_process hcode) hok hnoclear
      ⟨(h.proc q).tree, (h.proc q).other, (h.proc q).saved⟩ (fun _ h => h) hnolock
  case h_3 exit =>
    refine h.sched_process hcode ?_ hstep
    cases exit
    · exact .inl rfl
    · exact .inr rfl
  case h_5 pause =>
    split at hstep
    · cases hstep
    · cases hstep
      exact h.setCpu (same_process hcode) hok hnoclear hnolock
  case h_6 pc a hnot =>
    obtain ⟨r, hr, ht⟩ := bind_eq_ok.mp hstep
    cases ht
    refine h.kernelAct (o := some p) hcode ?_ hr
    exact fun q hq => hfree (q, .lockCpu) (by rw [hcode]; exact hq) rfl
  all_goals cases hstep

/-- The step lemma: a step that clears no lock which is taken keeps the invariant. The cases are the
places of the three functions. -/
theorem Inv.step {a : Nat × SchedAct κ χ} (h : Inv T s) (hfree : s.ClearsFreeLock a)
    (hstep : s.step T a = .ok t) : Inv T t := by
  unfold SchedSystem.step at hstep
  split at hstep
  case h_1 this pc hcode _ => exact h.schedulerStep hcode hstep
  case h_2 hcode _ =>
    cases hstep
    have hproc := h.ok_code hcode
    refine h.setCpu ⟨?_, ?_⟩ ⟨rfl, hproc⟩ (fun _ hp => nomatch hp) fun _ hp => nomatch hp
    · simp only [CpuState.level, hcode]
    · rw [hcode]
      rfl
  case h_3 pc hcode _ =>
    obtain ⟨r, hr, ht⟩ := bind_eq_ok.mp hstep
    cases ht
    refine h.kernelAct (o := none) hcode ?_ hr
    exact fun q hq => hfree (q, .lockCpu) (by rw [hcode]; exact hq) rfl
  case h_4 p pc hcode => exact h.processStep hcode hfree hstep
  case h_5 => cases hstep

/-! ## Runs

The only step that has to be excluded is the one in the middle of `memset`, in which a lock that
another CPU has just taken is overwritten (`ClearsFreeLock`). With it there is a run in which a CPU
executes an entry whose lock it has not got (`memset_takes_lock`). -/

omit [DecidableEq χ] in
/-- The invariant before the first step. No entry is executed, and every scheduler but the root has
its first context. -/
theorem Boot.inv (h : Boot T s) : Inv T s := by
  have hroot : ∀ p, ¬T.Under T.root p := by
    intro p hp
    cases hp with
    | here hp => cases T.p_root.symm.trans hp
    | up hp _ => cases T.p_root.symm.trans hp
  refine ⟨fun p => ⟨?_, h.other p, ?_⟩, fun c => ?_⟩
  · intro k hk
    obtain ⟨his, hcont, hstate⟩ := h.proc k p hk
    exact ⟨his, hcont, hstate ▸ ProcState.noConfusion⟩
  · intro code hcode
    rw [h.context] at hcode
    cases hcode
  · have hexec : ∀ p, ¬(s.cpu c).Executes T p := by
      intro p hp
      rw [h.cpu] at hp
      rcases hp with huser | hunder
      · cases huser
      · exact hroot p hunder
    constructor
    case ok =>
      rw [h.cpu]
      exact T.p_root.symm
    case exec => exact fun p hp => absurd hp (hexec p)
    case idle =>
      intro k code hk hcode
      rw [h.cpu] at hk
      have hne : k ≠ T.root := fun hkr => hk (.inl hkr)
      rw [h.entry, if_neg hne] at hcode
      exact .inl (Option.some.inj hcode).symm
    case locked =>
      intro p hp
      rw [h.cpu] at hp
      cases hp
    case clearing =>
      intro p hp
      rw [h.cpu] at hp
      cases hp

/-- The invariant along a run. -/
theorem ReachesUndisturbed.inv {s₀ : SchedSystem κ χ} (hboot : Boot T s₀)
    (h : ReachesUndisturbed T s₀ s) : Inv T s :=
  Steps.invariant h hboot.inv fun _ _ _ hs hfree hstep => hs.step hfree hstep

/-- While no lock is taken in the middle of `memset`, an entry is executed by one CPU at most. The
CPU that executes it has its lock, and the scheduler that runs it waits to release it; a scheduler
has the lock of its entry from the moment it got it, and when it releases it the lock is there. -/
theorem ReachesUndisturbed.one_cpu {s₀ : SchedSystem κ χ} (hboot : Boot T s₀)
    (h : ReachesUndisturbed T s₀ s) :
    (∀ c d p, (s.cpu c).Executes T p → (s.cpu d).Executes T p → c = d) ∧
    (∀ c p, (s.cpu c).Executes T p → (s.proc p).lock.Holding c ∧
      s.context p.cont c = some (.scheduler p.cont (.release p.index true))) ∧
    (∀ c k i pc, (s.cpu c).code = .scheduler k pc → pc.locked = some i →
      (s.proc ⟨k, i⟩).lock.Holding c) ∧
    ∀ c k i hasRun, (s.cpu c).code = .scheduler k (.release i hasRun) →
      ∃ t, s.step T (c, .go) = .ok t := by
  have hinv := h.inv hboot
  have hholding : ∀ c k i pc, (s.cpu c).code = .scheduler k pc → pc.locked = some i →
      (s.proc ⟨k, i⟩).lock.Holding c := by
    intro c k i pc hcode hpc
    refine ((hinv.cpu c).locked ⟨k, i⟩ ?_).1
    rw [hcode, Code.locked, hpc]
    rfl
  refine ⟨?_, ?_, hholding, ?_⟩
  · intro c d p hc hd
    exact ((hinv.cpu c).exec p hc).2.unique ((hinv.cpu d).exec p hd).2
  · exact fun c p hp => ((hinv.cpu c).exec p hp).symm
  · intro c k i hasRun hcode
    have hcheck := SpinLock.releaseCheck_of (hholding c k i _ hcode rfl)
    rw [SchedSystem.step]
    simp only [hcode]
    rw [SchedSystem.schedulerStep, hcheck]
    exact ⟨_, rfl⟩

theorem nproc_pos : 0 < nproc := by decide

/-- A root and a container below it, which the first entry of the root stands for. -/
def twoSchedulers : SchedTree Bool where
  root := false
  parent k := if k then some false else none
  p k := if k then some ⟨false, ⟨0, nproc_pos⟩⟩ else none
  depth := Bool.toNat
  parent_eq := by decide
  p_root := rfl
  p_inj := by decide
  depth_lt := by decide

/-- Before the first step, with that entry `RUNNABLE` and all others unused. -/
def bootTwo : SchedSystem Bool Nat where
  proc p :=
    if p = ⟨false, ⟨0, nproc_pos⟩⟩ then
      { cleared with state := .runnable, isScheduler := true, cont := some true }
    else cleared
  context k _ := if k = false then none else some (.entry .ready)
  cpu _ := ⟨false, none, .entry .ready⟩

/-- The state before the first step is one that the kernel may begin with: a root and a container
below it, and no process. -/
theorem boot_two : Boot twoSchedulers bootTwo := by
  refine ⟨?_, ?_, ?_, fun _ _ => rfl, fun _ => rfl⟩
  · intro k p hp
    cases k <;> cases hp
    exact ⟨rfl, rfl, rfl⟩
  · intro p hp
    have hne : p ≠ ⟨false, 0⟩ := fun hp' => hp true (hp' ▸ rfl)
    show (if p = ⟨false, 0⟩ then _ else (cleared : SchedProc Bool Nat)).isScheduler = false
    rw [if_neg hne]
    rfl
  · intro p
    unfold bootTwo
    dsimp only
    split <;> rfl

/-- CPU 0 runs the container, which makes a process and runs it; CPU 1 finds the container taken. -/
theorem one_cpu_two : ∃ s : SchedSystem Bool Nat, ReachesUndisturbed twoSchedulers bootTwo s ∧
    (s.cpu 0).Executes twoSchedulers ⟨true, 0⟩ ∧ (s.cpu 0).Executes twoSchedulers ⟨false, 0⟩ ∧
    ∀ d, (s.cpu d).Executes twoSchedulers ⟨true, 0⟩ → 0 = d := by
  obtain ⟨s, hrun, hcode⟩ : ∃ s, runList (step twoSchedulers) ClearsFreeLock bootTwo
      ([(0, .enter), (1, .enter)] ++ List.replicate 5 (0, .go) ++ [(1, .go), (0, .alloc)] ++
        List.replicate 18 (0, .go) ++ [(0, .enter)] ++ List.replicate 5 (0, .go)) = some s ∧
      (s.cpu 0).code = .process ⟨true, 0⟩ (.kernel .ready) :=
    ⟨_, rfl, rfl⟩
  have hreach : ReachesUndisturbed twoSchedulers bootTwo s := StepsOf.of_runList hrun
  have huser : (s.cpu 0).Executes twoSchedulers ⟨true, 0⟩ := .inl (by rw [hcode]; rfl)
  refine ⟨s, hreach, huser, .inr ?_, fun d hd => (hreach.one_cpu boot_two).1 0 d _ huser hd⟩
  rw [level_process hcode]
  exact .here rfl

/-- A root without containers. The run in which `memset` takes a lock away needs no more. -/
def rootOnly : SchedTree Unit where
  root := ()
  parent _ := none
  p _ := none
  depth _ := 0
  parent_eq := fun _ => rfl
  p_root := rfl
  p_inj := by
    intro k l p h
    cases h
  depth_lt := by
    intro k p h
    cases h

/-- Before the first step, with no process. -/
def bootRoot : SchedSystem Unit Nat where
  proc _ := cleared
  context _ _ := none
  cpu _ := ⟨(), none, .entry .ready⟩

/-- The state before the first step. -/
theorem boot_root : Boot rootOnly bootRoot := by
  refine ⟨?_, fun _ _ => rfl, fun _ => rfl, ?_, fun _ => rfl⟩
  · intro k p hp
    have hnone : none = some p := hp
    cases hnone
  · intro k c
    rfl

/-- CPU 0 begins to make a process and has cleared `lock.locked` of the entry; CPU 1 makes a process
of the same entry and runs it. -/
def takenInMemset : List (Nat × SchedAct Unit Nat) :=
  [(0, .alloc)] ++ List.replicate 8 (0, .go) ++ [(1, .alloc)] ++ List.replicate 18 (1, .go) ++
    [(1, .enter)] ++ List.replicate 5 (1, .go)

/-- CPU 0 is in `memset` and has cleared `lock.locked` of an entry. CPU 1 takes the entry, makes a
process of it and runs it. Then CPU 0 clears `lock.cpu`, and CPU 1 executes the process without its
lock, so that the scheduler panics when control is back. -/
theorem memset_takes_lock : Boot rootOnly bootRoot ∧
    ∃ s t : SchedSystem Unit Nat, Reaches rootOnly bootRoot s ∧
    (s.cpu 1).Executes rootOnly ⟨(), 0⟩ ∧ ¬ (s.proc ⟨(), 0⟩).lock.Holding 1 ∧
    Reaches rootOnly bootRoot t ∧ (t.cpu 1).code = .scheduler () (.release 0 true) ∧
    t.step rootOnly (1, .go) = .error (.panic "release: lock  not held\n") := by
  refine ⟨boot_root, ?_⟩
  have hfirst : (runList (step rootOnly) (fun _ _ => True) bootRoot (takenInMemset ++ [(0, .go)])).map
      (fun s => ((s.cpu 1).code, (s.proc ⟨(), 0⟩).lock)) =
        some (.process ⟨(), 0⟩ (.kernel .ready), ⟨true, none, ""⟩) := by
    decide +kernel
  have hsecond : (runList (step rootOnly) (fun _ _ => True) bootRoot (takenInMemset ++
      [(0, .go), (1, .pause .yield), (1, .go), (1, .go)])).map
      (fun s => ((s.cpu 1).code, (s.proc ⟨(), 0⟩).lock)) =
        some (.scheduler () (.release 0 true), ⟨true, none, ""⟩) := by
    decide +kernel
  obtain ⟨s, hs, hsame⟩ := Option.map_eq_some_iff.mp hfirst
  obtain ⟨t, ht, htsame⟩ := Option.map_eq_some_iff.mp hsecond
  obtain ⟨hcode, hlock⟩ := Prod.mk.inj hsame
  obtain ⟨hrelease, htlock⟩ := Prod.mk.inj htsame
  refine ⟨s, t, StepsOf.of_runList hs, .inl ?_, ?_, StepsOf.of_runList ht, hrelease, ?_⟩
  · rw [hcode]
    rfl
  · rw [hlock]
    decide
  · rw [SchedSystem.step]
    simp only [hrelease]
    rw [SchedSystem.schedulerStep, htlock]
    rfl

end SchedSystem
end KernelAarch64.Core
