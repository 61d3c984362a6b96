import KernelAarch64.Common.SpinLock
import KernelAarch64.Core.Spawn
import KernelAarch64.Lib.Steps

/-!
# `alloc_pcb_simple` on several CPUs (`core/sched.c`)

CPUs call `alloc_pcb_simple` on one scheduler, and each of its statements is a step. The lock of an
entry of the process table is a part of the entry, so `memset` gives it back while the entry still
says `UNUSED`.

`Core.Spawn` has a call as one step; a call that no other CPU disturbs is that step.

`PcbInv` is the invariant of all CPUs: an entry that one of them has found is found by no other and
was not returned. Its step lemmas are one for each statement of the function, and the one about the
test needs that no other CPU is between its `memset` and its `p->state = EMBRYO` (`Apart`). Under
this condition no entry is returned twice (`returned_nodup`); `returned_twice` is what happens
without it.
-/

namespace KernelAarch64.Core

open KernelAarch64.Lib KernelAarch64.Common

/-- Where a CPU is in `alloc_pcb_simple`. Every access to the lock, the state or the rest of the
entry is a place of its own. -/
inductive PcbPc where
  | outside
  /-- At `try_acquire_spinlock(&this->ptable.proc[i].lock)`. -/
  | tryLock (i : Fin nproc)
  /-- At `this->ptable.proc[i].state == UNUSED`. -/
  | test (i : Fin nproc)
  /-- At `release_spinlock(&this->ptable.proc[i].lock)`. -/
  | release (i : Fin nproc)
  /-- At `memset(p, 0, sizeof(proc))`. -/
  | clear (i : Fin nproc)
  /-- At `p->state = EMBRYO`. -/
  | setState (i : Fin nproc)
  /-- At `p->pid = *(int *)alloc_resource((container *)this->cont, p, PID)`. -/
  | setPid (i : Fin nproc)
  deriving Repr, DecidableEq

/-- The head of the loop after the entry `i`. After the last one `NULL` is returned. -/
def PcbPc.next (i : Fin nproc) : PcbPc :=
  if h : i.val + 1 < nproc then .tryLock ⟨i.val + 1, h⟩ else .outside

/-- A lock after `memset`. Its name is `NULL`, which is printed as `(null)`. -/
def zeroLock : SpinLock := ⟨false, none, "(null)"⟩

/-- The process table of the scheduler of `this`, and `n` CPUs. The locks are kept apart from the
rest of the entries, since the model of containers has none. -/
structure PcbSystem (κ : Type) (n : Nat) where
  cont : Containers κ
  this : κ
  /-- `this->ptable.proc[i].lock` -/
  lock : Fin nproc → SpinLock
  pc : Fin n → PcbPc
  /-- What the calls have returned that found an entry, the last one first. -/
  returned : List (Fin nproc)

/-- What happens next: a call begins, a call goes on, or somebody else writes to an entry that is in
use. -/
inductive PcbStep (κ : Type) (n : Nat) where
  /-- A call of `alloc_pcb_simple`. -/
  | call (c : Fin n)
  /-- The call goes on. -/
  | go (c : Fin n)
  /-- Something else writes to an entry. -/
  | other (i : Fin nproc) (q : ContProc κ)

namespace PcbSystem

variable {κ : Type} [DecidableEq κ] {n : Nat}

/-- `&this->ptable.proc[i]` -/
def ptr (s : PcbSystem κ n) (i : Fin nproc) : ProcPtr κ := ⟨s.this, i⟩

/-- `this->ptable.proc[i].state` -/
def state (s : PcbSystem κ n) (i : Fin nproc) : ProcState := (s.cont.proc (s.ptr i)).state

def setPc (s : PcbSystem κ n) (c : Fin n) (pc : PcbPc) : PcbSystem κ n :=
  { s with pc := Function.update s.pc c pc }

def setLock (s : PcbSystem κ n) (i : Fin nproc) (l : SpinLock) : PcbSystem κ n :=
  { s with lock := Function.update s.lock i l }

def setProc (s : PcbSystem κ n) (i : Fin nproc) (q : ContProc κ) : PcbSystem κ n :=
  { s with cont := s.cont.setProc (s.ptr i) q }

/-- One step of a call on the CPU `c`; `fuel` bounds the calls of `alloc_resource` by itself. -/
def runOn (fuel : Nat) (s : PcbSystem κ n) (c : Fin n) : Except Stop (PcbSystem κ n) :=
  match s.pc c with
  | .outside => .error .wait
  | .tryLock i =>
    if (s.lock i).locked then .ok (s.setPc c (.next i))
    else .ok ((s.setLock i ((s.lock i).taken c)).setPc c (.test i))
  | .test i => .ok (s.setPc c (if s.state i = .unused then .clear i else .release i))
  | .release i => do
    (s.lock i).releaseCheck c
    return (s.setLock i (s.lock i).released).setPc c (.next i)
  | .clear i => .ok (((s.setProc i .zero).setLock i zeroLock).setPc c (.setState i))
  | .setState i =>
    .ok ((s.setProc i { s.cont.proc (s.ptr i) with state := .embryo }).setPc c (.setPid i))
  | .setPid i => do
    let r ← allocResource fuel s.cont (s.cont s.this).scheduler.cont (some (s.ptr i))
    match r.2 with
    | none => .error .fault
    | some pid =>
      let s : PcbSystem κ n := { s with cont := r.1, returned := i :: s.returned }
      return (s.setProc i { s.cont.proc (s.ptr i) with pid := pid }).setPc c .outside

/-- One step. Which writes of others are allowed is said by `Allowed`, and not here. -/
def step (fuel : Nat) (s : PcbSystem κ n) : PcbStep κ n → Except Stop (PcbSystem κ n)
  | .call c => if s.pc c = .outside then .ok (s.setPc c (.tryLock ⟨0, by decide⟩)) else .error .wait
  | .go c => s.runOn fuel c
  | .other i q => .ok (s.setProc i q)

/-- Everything else writes only to entries that are in use, and never makes one `UNUSED`. -/
def Allowed (s : PcbSystem κ n) : PcbStep κ n → Prop
  | .other i q => (s.state i ≠ .unused ∨ i ∈ s.returned) ∧ q.state ≠ .unused
  | _ => True

/-- Nobody looks at the state of an entry between the `memset` and the `p->state = EMBRYO` of
another CPU. -/
def Apart (s : PcbSystem κ n) : PcbStep κ n → Prop
  | .go c => ∀ i, s.pc c = .test i → ∀ d, s.pc d ≠ .setState i
  | _ => True

instance (s : PcbSystem κ n) (a : PcbStep κ n) : Decidable (s.Allowed a) := by
  induction a using PcbStep.casesOn <;> dsimp only [Allowed] <;> infer_instance

instance (s : PcbSystem κ n) (a : PcbStep κ n) : Decidable (s.Apart a) := by
  induction a using PcbStep.casesOn <;> dsimp only [Apart] <;> infer_instance

/-- A process table with anything in it, before any call: no CPU is in `alloc_pcb`, and no entry has
been returned. -/
structure Start (s : PcbSystem κ n) : Prop where
  pc : ∀ c, s.pc c = .outside
  returned : s.returned = []

/-- The states after any steps allowed by `ok` as well. With the condition `Apart` these are the
runs in which the race over the state does not happen. -/
def Reaches (fuel : Nat) (ok : PcbSystem κ n → PcbStep κ n → Prop) :
    PcbSystem κ n → PcbSystem κ n → Prop :=
  StepsOf (step fuel) fun s a => s.Allowed a ∧ ok s a

/-! ## A call that is alone

The steps of one call, while nobody else moves, are the call in one step that `Core.Spawn` has. This
is how the two models of `alloc_pcb_simple` are tied together. -/

section Alone

variable {s t : PcbSystem Nat n} {c : Fin n} {i : Fin nproc}

theorem Reaches.go {fuel : Nat} {u : PcbSystem Nat n} (hrun : s.runOn fuel c = .ok t)
    (h : Reaches fuel (fun _ _ => True) t u) : Reaches fuel (fun _ _ => True) s u :=
  Steps.head (a := .go c) ⟨trivial, trivial⟩ hrun h

/-- The entry can be taken. -/
def free (s : PcbSystem Nat n) (i : Fin nproc) : Bool :=
  !(s.lock i).locked && decide (s.state i = .unused)

/-- Whether an entry can be taken depends on its lock and its state. -/
theorem free_congr (hlock : ∀ j, (t.lock j).locked = (s.lock j).locked)
    (hstate : t.state = s.state) : t.free = s.free := by
  funext j
  rw [free, free, hlock, hstate]

theorem finRange_drop (i : Fin nproc) :
    (List.finRange nproc).drop i = i :: (List.finRange nproc).drop (i + 1) := by
  rw [List.drop_eq_getElem_cons (by simp), List.getElem_finRange]
  rfl

/-- A turn of the loop takes the entry, or leaves everything as it was for the next one. The cases
are the outcomes of the two tests: the lock is taken, the entry is in use, or it can be had. -/
theorem turn_alone (fuel : Nat) (hpc : s.pc c = .tryLock i) :
    ∃ t, Reaches fuel (fun _ _ => True) s t ∧ t.cont = s.cont ∧ t.this = s.this ∧
      t.returned = s.returned ∧
      if s.free i then t.pc c = .clear i else t.free = s.free ∧ t.pc c = .next i := by
  by_cases hlocked : (s.lock i).locked = true
  · have hrun : s.runOn fuel c = .ok (s.setPc c (.next i)) := by
      rw [runOn, hpc]
      exact if_pos hlocked
    refine ⟨_, Reaches.go hrun (Steps.refl _), rfl, rfl, rfl, ?_⟩
    rw [if_neg (by simp [free, hlocked])]
    exact ⟨rfl, Function.update_self ..⟩
  · have hrun : s.runOn fuel c = .ok ((s.setLock i ((s.lock i).taken c)).setPc c (.test i)) := by
      rw [runOn, hpc]
      exact if_neg hlocked
    generalize ht : (s.setLock i ((s.lock i).taken c)).setPc c (.test i) = t at hrun
    have htpc : t.pc c = .test i := ht ▸ Function.update_self ..
    have htlock : t.lock i = (s.lock i).taken c := ht ▸ Function.update_self ..
    have htstate : t.state i = s.state i := ht ▸ rfl
    by_cases hunused : s.state i = .unused
    · have hrun' : t.runOn fuel c = .ok (t.setPc c (.clear i)) := by
        rw [runOn, htpc]
        simp only [htstate, if_pos hunused]
      refine ⟨_, Reaches.go hrun (Reaches.go hrun' (Steps.refl _)), ht ▸ rfl, ht ▸ rfl, ht ▸ rfl, ?_⟩
      rw [if_pos (by simp [free, hlocked, hunused])]
      exact Function.update_self ..
    · have hrun' : t.runOn fuel c = .ok (t.setPc c (.release i)) := by
        rw [runOn, htpc]
        simp only [htstate, if_neg hunused]
      have hrun'' : (t.setPc c (.release i)).runOn fuel c =
          .ok (((t.setPc c (.release i)).setLock i (t.lock i).released).setPc c (.next i)) := by
        rw [runOn]
        simp only [setPc, Function.update_self]
        rw [htlock, SpinLock.releaseCheck_of SpinLock.taken_holding]
        rfl
      refine ⟨_, Reaches.go hrun (Reaches.go hrun' (Reaches.go hrun'' (Steps.refl _))), ht ▸ rfl,
        ht ▸ rfl, ht ▸ rfl, ?_⟩
      rw [if_neg (by simp [free, hunused])]
      refine ⟨free_congr (fun j => ?_) (ht ▸ rfl), Function.update_self ..⟩
      subst ht
      by_cases hj : j = i
      · subst hj
        simp only [setPc, setLock, Function.update_self]
        exact (Bool.eq_false_iff.mpr hlocked).symm
      · simp only [setPc, setLock, Function.update_of_ne hj]

/-- The loop of a call that is alone stops at the first entry that can be taken. The induction is on
the entries that are left. -/
theorem loop_alone (fuel : Nat) (hpc : s.pc c = .tryLock i) :
    ∃ t, Reaches fuel (fun _ _ => True) s t ∧ t.cont = s.cont ∧ t.this = s.this ∧
      t.returned = s.returned ∧
      t.pc c = (((List.finRange nproc).drop i).find? s.free).elim .outside .clear := by
  induction hk : nproc - i.val generalizing s i with
  | zero => omega
  | succ k ih =>
    obtain ⟨t, hreach, hcont, hthis, hret, hturn⟩ := turn_alone fuel hpc
    rw [finRange_drop]
    split at hturn
    · next hfree =>
      rw [List.find?_cons_of_pos hfree]
      exact ⟨t, hreach, hcont, hthis, hret, hturn⟩
    · next hbusy =>
      obtain ⟨hfree, htpc⟩ := hturn
      rw [List.find?_cons_of_neg hbusy]
      by_cases hi : i.val + 1 < nproc
      · rw [PcbPc.next, dif_pos hi] at htpc
        obtain ⟨u, hu, hucont, huthis, huret, hupc⟩ := ih htpc (by simp only; omega)
        rw [hfree] at hupc
        exact ⟨u, hreach.trans hu, hucont.trans hcont, huthis.trans hthis, huret.trans hret, hupc⟩
      · rw [PcbPc.next, dif_neg hi] at htpc
        rw [List.drop_eq_nil_of_le (by simpa using hi)]
        exact ⟨t, hreach, hcont, hthis, hret, htpc⟩

/-- `memset` and `p->state = EMBRYO` together. -/
theorem setProc_embryo (s : Containers Nat) (p : ProcPtr Nat) :
    Containers.setProc (s.setProc p .zero) p
      { Containers.proc (s.setProc p .zero) p with state := .embryo } = s.setProc p .embryo := by
  rw [Containers.setProc_proc, Containers.setProc, Containers.setProc, Containers.setProc,
    Function.update_self, Function.update_idem, Container.setProc, Container.setProc]
  simp only [Function.update_idem]
  rfl

/-- The rest of a call that has found an entry: the entry is cleared, becomes an `EMBRYO` and gets
its ids, and the call returns it. -/
theorem found_alone (fuel : Nat) {u : Containers Nat × Option Int} {pid : Int}
    (hpc : s.pc c = .clear i)
    (hu : allocResource fuel (s.cont.setProc (s.ptr i) .embryo)
      (s.cont.setProc (s.ptr i) .embryo s.this).scheduler.cont (some (s.ptr i)) = .ok u)
    (hpid : u.2 = some pid) :
    ∃ t, Reaches fuel (fun _ _ => True) s t ∧
      t.cont = Containers.setProc u.1 (s.ptr i) { Containers.proc u.1 (s.ptr i) with pid := pid } ∧
      t.pc c = .outside ∧ t.returned = i :: s.returned := by
  have hclear : s.runOn fuel c =
      .ok (((s.setProc i .zero).setLock i zeroLock).setPc c (.setState i)) := by
    rw [runOn, hpc]
  generalize ht : ((s.setProc i .zero).setLock i zeroLock).setPc c (.setState i) = t at hclear
  have htpc : t.pc c = .setState i := ht ▸ Function.update_self ..
  have hstate : t.runOn fuel c = .ok ((t.setProc i { t.cont.proc (t.ptr i) with
      state := .embryo }).setPc c (.setPid i)) := by
    rw [runOn, htpc]
  generalize hw : (t.setProc i { t.cont.proc (t.ptr i) with state := .embryo }).setPc c
    (.setPid i) = w at hstate
  have hwpc : w.pc c = .setPid i := hw ▸ Function.update_self ..
  have hwcont : w.cont = s.cont.setProc (s.ptr i) .embryo := by
    subst hw ht
    exact setProc_embryo s.cont (s.ptr i)
  obtain ⟨hwptr, hwret, hwthis⟩ : w.ptr i = s.ptr i ∧ w.returned = s.returned ∧
      w.this = s.this := by
    subst hw ht
    exact ⟨rfl, rfl, rfl⟩
  have hset : w.runOn fuel c = .ok
      ((PcbSystem.setProc { w with cont := u.1, returned := i :: w.returned } i
        { Containers.proc u.1 (w.ptr i) with pid := pid }).setPc c .outside) := by
    rw [runOn, hwpc]
    simp only [hwcont, hwthis, hwptr, hu]
    rw [ok_bind, hpid]
    rfl
  refine ⟨_, Reaches.go hclear (Reaches.go hstate (Reaches.go hset (Steps.refl _))), ?_,
    Function.update_self .., ?_⟩
  · rw [← hwptr]
    rfl
  · rw [← hwret]
    rfl

/-- A call that is alone does what `allocPcbSimple` does in one step. So the model of `Core.Spawn`
is that of a call which no other CPU disturbs. -/
theorem alone_reaches {r : Containers Nat × Option (ProcPtr Nat)} (hpc : s.pc c = .outside)
    (h : allocPcbSimple s.cont s.this (fun i => (s.lock i).locked) = .ok r) :
    ∃ t, Reaches (s.this + 1) (fun _ _ => True) s t ∧ t.cont = r.1 ∧ t.pc c = .outside ∧
      t.returned = (r.2.map ProcPtr.index).toList ++ s.returned := by
  have hcall : s.step (s.this + 1) (.call c) = .ok (s.setPc c (.tryLock ⟨0, by decide⟩)) :=
    if_pos hpc
  obtain ⟨t, hreach, hcont, hthis, hret, htpc⟩ := loop_alone (s.this + 1)
    (s := s.setPc c (.tryLock ⟨0, by decide⟩)) (c := c) (Function.update_self ..)
  have hst : Reaches (s.this + 1) (fun _ _ => True) s t :=
    Steps.head (a := .call c) ⟨trivial, trivial⟩ hcall hreach
  have hfree : (s.setPc c (.tryLock ⟨0, by decide⟩)).free = fun i =>
      !(s.lock i).locked && decide (((s.cont s.this).scheduler.proc i).state = .unused) := rfl
  rw [hfree, List.drop_zero] at htpc
  rw [allocPcbSimple] at h
  split at h
  · next hnone =>
    rw [hnone] at htpc
    cases h
    exact ⟨t, hst, hcont, htpc, hret⟩
  · next i hsome =>
    rw [hsome] at htpc
    dsimp only at h
    obtain ⟨u, hu, hpid⟩ := bind_eq_ok.mp h
    cases hv : u.2 with
    | none =>
      rw [hv] at hpid
      cases hpid
    | some pid =>
      rw [hv] at hpid
      cases hpid
      have hptr : t.ptr i = ⟨s.this, i⟩ := by
        rw [ptr, hthis]
        rfl
      obtain ⟨w, hw, hwcont, hwpc, hwret⟩ := found_alone (s.this + 1) (u := u) htpc
        (by rw [hcont, hthis, hptr]; exact hu) hv
      rw [hptr] at hwcont
      exact ⟨w, hst.trans hw, hwcont, hwpc, hwret.trans (congrArg _ hret)⟩

end Alone

end PcbSystem

/-! ## The invariant

It is stated for the four parts of the state that it is about, so that a step that changes one of
them is an update. -/

/-- The entry whose lock the CPU has. When `memset` has run, the lock is clear, and the entry is no
longer held. -/
def PcbPc.held : PcbPc → Option (Fin nproc)
  | .test i | .release i | .clear i => some i
  | _ => none

/-- The entry that a call has found, from the moment its state has been read as `UNUSED` to the
return. -/
def PcbPc.found : PcbPc → Option (Fin nproc)
  | .clear i | .setState i | .setPid i => some i
  | _ => none

/-- The next entry is not looked at yet. -/
theorem PcbPc.next_idle (i : Fin nproc) :
    (PcbPc.next i).held = none ∧ (PcbPc.next i).found = none := by
  rw [PcbPc.next]
  split
  · exact ⟨rfl, rfl⟩
  · exact ⟨rfl, rfl⟩

/-- Entries with their locks, CPUs, and what has been returned. A CPU with a lock holds it there; an
entry that one call has found is unused or its own, is found by no other call, and was not returned.
-/
structure PcbInv {n : Nat} (state : Fin nproc → ProcState) (lock : Fin nproc → SpinLock)
    (pc : Fin n → PcbPc) (returned : List (Fin nproc)) : Prop where
  held : ∀ c i, (pc c).held = some i → (lock i).Holding c
  unused : ∀ c i, pc c = .clear i ∨ pc c = .setState i → state i = .unused
  used : ∀ c i, pc c = .setPid i → state i ≠ .unused
  found : ∀ c d i, (pc c).found = some i → (pc d).found = some i → c = d
  fresh : ∀ c i, (pc c).found = some i → i ∉ returned
  inUse : ∀ i ∈ returned, state i ≠ .unused
  nodup : returned.Nodup

namespace PcbInv

variable {n : Nat} {state : Fin nproc → ProcState} {lock : Fin nproc → SpinLock}
  {pc : Fin n → PcbPc} {returned : List (Fin nproc)} {c d : Fin n} {i : Fin nproc} {q : PcbPc}
  {st : ProcState}

/-- A step to where a call has no entry. -/
theorem idle (h : PcbInv state lock pc returned) (hq : q.held = none ∧ q.found = none) :
    PcbInv state lock (Function.update pc c q) returned := by
  obtain ⟨hheld, hunused, hused, hfound, hfresh, hinUse, hnodup⟩ := h
  constructor <;> grind [PcbPc.held, PcbPc.found, Function.update_apply]

/-- A lock that was free is taken. No other CPU is between its lock and its `memset`, since that one
would have it. -/
theorem tryLock (h : PcbInv state lock pc returned) (hfree : (lock i).locked = false) :
    PcbInv state (Function.update lock i ((lock i).taken c)) (Function.update pc c (.test i))
      returned := by
  obtain ⟨hheld, hunused, hused, hfound, hfresh, hinUse, hnodup⟩ := h
  constructor
  case held =>
    -- nobody else has a lock that was free
    grind [PcbPc.held, Function.update_apply, SpinLock.Holding, SpinLock.taken]
  all_goals grind [PcbPc.held, PcbPc.found, Function.update_apply]

theorem alone (h : PcbInv state lock pc returned) (hc : (pc c).held = some i)
    (hd : (pc d).held = some i) : d = c :=
  Fin.ext ((h.held d i hd).unique (h.held c i hc))

/-- While `c` sees the entry unused, no call has found it. A call that has found it is past its
`EMBRYO`, or has the lock, or is where `Apart` says that it is not. -/
theorem not_found (h : PcbInv state lock pc returned) (hpc : pc c = .test i)
    (hunused : state i = .unused) (hapart : ∀ d, pc d ≠ .setState i) (d : Fin n) :
    (pc d).found ≠ some i := by
  intro hd
  cases hpd : pc d with
  | clear j =>
    rw [hpd] at hd
    cases hd
    -- both have the lock
    obtain rfl : d = c := h.alone (i := i) (by rw [hpc]; rfl) (by rw [hpd]; rfl)
    cases hpc.symm.trans hpd
  | setState j =>
    rw [hpd] at hd
    cases hd
    exact hapart d hpd
  | setPid j =>
    rw [hpd] at hd
    cases hd
    exact h.used d i hpd hunused
  | outside | tryLock j | test j | release j =>
    rw [hpd] at hd
    cases hd

/-- The entry is unused: `c` has found it. -/
theorem test_unused (h : PcbInv state lock pc returned) (hpc : pc c = .test i)
    (hst : state i = .unused) (hapart : ∀ d, pc d ≠ .setState i) :
    PcbInv state lock (Function.update pc c (.clear i)) returned := by
  have hnone := h.not_found hpc hst hapart
  have hnot : i ∉ returned := fun hi => h.inUse i hi hst
  obtain ⟨hheld, hunused, hused, hfound, hfresh, hinUse, hnodup⟩ := h
  constructor <;> grind [PcbPc.held, PcbPc.found, Function.update_apply]

/-- The entry is in use: `c` gives it back. -/
theorem test_used (h : PcbInv state lock pc returned) (hpc : pc c = .test i) :
    PcbInv state lock (Function.update pc c (.release i)) returned := by
  obtain ⟨hheld, hunused, hused, hfound, hfresh, hinUse, hnodup⟩ := h
  constructor <;> grind [PcbPc.held, PcbPc.found, Function.update_apply]

/-- The lock is given back, and the loop goes on. -/
theorem release (h : PcbInv state lock pc returned) (hpc : pc c = .release i)
    (hq : q.held = none ∧ q.found = none) :
    PcbInv state (Function.update lock i (lock i).released) (Function.update pc c q) returned := by
  have halone : ∀ d, (pc d).held = some i → d = c := fun d => h.alone (by rw [hpc]; rfl)
  obtain ⟨hheld, hunused, hused, hfound, hfresh, hinUse, hnodup⟩ := h
  constructor <;> grind [PcbPc.held, PcbPc.found, Function.update_apply]

/-- The entry is free again for everybody, but for `c` it is not. -/
theorem clear (h : PcbInv state lock pc returned) (hpc : pc c = .clear i) :
    PcbInv (Function.update state i .unused) (Function.update lock i zeroLock)
      (Function.update pc c (.setState i)) returned := by
  have halone : ∀ d, (pc d).held = some i → d = c := fun d => h.alone (by rw [hpc]; rfl)
  obtain ⟨hheld, hunused, hused, hfound, hfresh, hinUse, hnodup⟩ := h
  constructor <;> grind [PcbPc.held, PcbPc.found, Function.update_apply]

/-- `p->state = EMBRYO`: now nobody else can find the entry. -/
theorem setState (h : PcbInv state lock pc returned) (hpc : pc c = .setState i)
    (hst : st ≠ .unused) :
    PcbInv (Function.update state i st) lock (Function.update pc c (.setPid i)) returned := by
  obtain ⟨hheld, hunused, hused, hfound, hfresh, hinUse, hnodup⟩ := h
  constructor <;> grind [PcbPc.held, PcbPc.found, Function.update_apply]

theorem setPid (h : PcbInv state lock pc returned) (hpc : pc c = .setPid i) :
    PcbInv state lock (Function.update pc c .outside) (i :: returned) := by
  obtain ⟨hheld, hunused, hused, hfound, hfresh, hinUse, hnodup⟩ := h
  constructor <;> grind [PcbPc.held, PcbPc.found, Function.update_apply]

/-- Something else writes to an entry that is in use. -/
theorem other (h : PcbInv state lock pc returned) (hi : state i ≠ .unused) (hst : st ≠ .unused) :
    PcbInv (Function.update state i st) lock pc returned := by
  obtain ⟨hheld, hunused, hused, hfound, hfresh, hinUse, hnodup⟩ := h
  constructor <;> grind [Function.update_apply]

end PcbInv

/-- `alloc_resource` leaves the process tables alone. It writes the tables of ids, on the way up. -/
theorem allocResource_proc {κ : Type} [DecidableEq κ] {fuel : Nat} {s : Containers κ}
    {this : Option κ} {p : ProcPtr κ} {r : Containers κ × Option Int}
    (h : allocResource fuel s this (some p) = .ok r) (k : κ) :
    (r.1 k).scheduler.proc = (s k).scheduler.proc := by
  induction fuel generalizing s this r with
  | zero =>
    cases this with
    | none =>
      cases h
      rfl
    | some c => cases h
  | succ fuel ih =>
    cases this with
    | none =>
      rw [allocResource_none] at h
      cases h
      rfl
    | some c =>
      obtain ⟨-, i, -, v, hrest, -⟩ := allocResource_succ h
      rw [ih hrest]
      by_cases hk : k = c
      · subst hk
        rw [Function.update_self]
        rfl
      · rw [Function.update_of_ne hk]

namespace PcbSystem

variable {κ : Type} [DecidableEq κ] {n fuel : Nat} {s t : PcbSystem κ n} {c d : Fin n}
  {i j : Fin nproc} {q : ContProc κ} {pc : PcbPc} {l : SpinLock} {a : PcbStep κ n}

omit [DecidableEq κ] in
@[simp] theorem state_setPc : (s.setPc c pc).state = s.state := rfl

omit [DecidableEq κ] in
@[simp] theorem state_setLock : (s.setLock i l).state = s.state := rfl

/-- A change of an entry. -/
@[simp] theorem state_setProc : (s.setProc i q).state = Function.update s.state i q.state := by
  funext j
  by_cases hj : j = i
  · subst hj
    rw [Function.update_self]
    exact congrArg ContProc.state Containers.setProc_proc
  · rw [Function.update_of_ne hj]
    simp [state, setProc, ptr, Containers.proc, Containers.setProc, Container.setProc, hj]

/-- The invariant, of the state. -/
def Inv (s : PcbSystem κ n) : Prop := PcbInv s.state s.lock s.pc s.returned

omit [DecidableEq κ] in
theorem Inv.init (h : s.Start) : s.Inv := by
  have hpc := h.pc
  constructor <;> grind [PcbPc.held, PcbPc.found, h.returned]

/-- A step of a call. There is a case for each statement of `alloc_pcb_simple`, and for each of them
a lemma about `PcbInv` above. -/
theorem Inv.runOn (h : s.Inv) (hapart : s.Apart (.go c)) (hrun : s.runOn fuel c = .ok t) :
    t.Inv := by
  rw [PcbSystem.runOn] at hrun
  cases hpc : s.pc c with
  | outside =>
    rw [hpc] at hrun
    cases hrun
  -- A lock that is held makes the search go on to the next entry.
  | tryLock i =>
    simp only [hpc] at hrun
    split at hrun
    · cases hrun
      exact PcbInv.idle h (PcbPc.next_idle i)
    · next hfree =>
      cases hrun
      exact PcbInv.tryLock h (Bool.eq_false_iff.mpr hfree)
  | test i =>
    simp only [hpc] at hrun
    cases hrun
    split
    · next hunused => exact PcbInv.test_unused h hpc hunused (hapart i hpc)
    · exact PcbInv.test_used h hpc
  | release i =>
    simp only [hpc] at hrun
    obtain ⟨-, -, hret⟩ := bind_eq_ok.mp hrun
    cases hret
    exact PcbInv.release h hpc (PcbPc.next_idle i)
  -- `memset` gives up the lock along with the rest of the entry.
  | clear i =>
    simp only [hpc] at hrun
    cases hrun
    rw [Inv, state_setPc, state_setLock, state_setProc]
    exact PcbInv.clear h hpc
  | setState i =>
    simp only [hpc] at hrun
    cases hrun
    rw [Inv, state_setPc, state_setProc]
    exact PcbInv.setState h hpc ProcState.noConfusion
  | setPid i =>
    simp only [hpc] at hrun
    obtain ⟨r, hr, hret⟩ := bind_eq_ok.mp hrun
    cases hpid : r.2 with
    | none =>
      rw [hpid] at hret
      cases hret
    | some pid =>
      rw [hpid] at hret
      cases hret
      -- Handing out a pid touches no entry of the table.
      have hproc : ∀ j, Containers.proc r.1 (s.ptr j) = s.cont.proc (s.ptr j) :=
        fun j => congrFun (allocResource_proc hr s.this) j
      have hstate : (PcbSystem.mk r.1 s.this s.lock s.pc (i :: s.returned)).state = s.state :=
        funext fun j => congrArg ContProc.state (hproc j)
      rw [Inv, state_setPc, state_setProc, hstate]
      have hsame : (Containers.proc r.1 (s.ptr i)).state = s.state i :=
        congrArg ContProc.state (hproc i)
      show PcbInv (Function.update s.state i (Containers.proc r.1 (s.ptr i)).state) _ _ _
      rw [hsame, Function.update_eq_self]
      exact PcbInv.setPid h hpc

/-- The step lemma: a step that does not look at an entry between the `memset` and the `EMBRYO` of
another CPU keeps the invariant. -/
theorem Inv.step (h : s.Inv) (hok : s.Allowed a) (hapart : s.Apart a)
    (hstep : s.step fuel a = .ok t) : t.Inv := by
  cases a with
  | call c =>
    rw [PcbSystem.step] at hstep
    split at hstep
    · cases hstep
      exact PcbInv.idle h ⟨rfl, rfl⟩
    · cases hstep
  | go c => exact h.runOn hapart hstep
  | other i q =>
    cases hstep
    rw [Inv, state_setProc]
    refine PcbInv.other h ?_ hok.2
    exact hok.1.elim id (PcbInv.inUse h i)

/-- No entry is handed out twice, as long as nobody looks at an entry between the `memset` and the
`p->state = EMBRYO` of another CPU. -/
theorem returned_nodup (hs : s.Start) (h : Reaches fuel Apart s t) : t.returned.Nodup := by
  have hinv : t.Inv := Steps.invariant h (Inv.init hs) fun _ _ _ hu hok hstep =>
    hu.step hok.1 hok.2 hstep
  exact PcbInv.nodup hinv

/-- The root container with no process, and two CPUs that are about to call `alloc_pcb_simple`. -/
def emptyTable : PcbSystem Nat 2 where
  cont := fun _ => newContainer 0
  this := 0
  lock := fun _ => zeroLock
  pc := fun _ => .outside
  returned := []

theorem emptyTable_start : emptyTable.Start := ⟨fun _ => rfl, rfl⟩

/-- A call that meets another one after its `p->state = EMBRYO` goes on to the next entry. -/
theorem returned_nodup_two : ∃ t, Reaches 1 Apart emptyTable t ∧ t.returned.length = 2 ∧
    t.returned.Nodup := by
  obtain ⟨t, hrun, hlen⟩ : ∃ t, runList (step 1) (fun s a => s.Allowed a ∧ s.Apart a) emptyTable
      ([.call 0, .go 0, .go 0, .go 0, .call 1, .go 1, .go 0, .go 1, .go 1, .go 0] ++
        [.go 1, .go 1, .go 1, .go 1, .go 1]) = some t ∧ t.returned.length = 2 :=
    ⟨_, rfl, rfl⟩
  have hreach : Reaches 1 Apart emptyTable t := StepsOf.of_runList hrun
  exact ⟨t, hreach, hlen, returned_nodup emptyTable_start hreach⟩

/-- The second CPU looks at the entry after the `memset` of the first. -/
theorem returned_twice : ∃ t, emptyTable.Start ∧ Reaches 1 (fun _ _ => True) emptyTable t ∧
    ¬t.returned.Nodup := by
  obtain ⟨t, hrun, hret⟩ : ∃ t, runList (step 1) (fun s a => s.Allowed a ∧ True) emptyTable
      [.call 0, .call 1, .go 0, .go 0, .go 0, .go 1, .go 1, .go 0, .go 0, .go 1, .go 1, .go 1] =
        some t ∧ t.returned = [0, 0] :=
    ⟨_, rfl, rfl⟩
  refine ⟨t, emptyTable_start, StepsOf.of_runList hrun, ?_⟩
  rw [hret]
  decide

end PcbSystem

end KernelAarch64.Core
