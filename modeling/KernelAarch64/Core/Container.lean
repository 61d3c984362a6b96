import KernelAarch64.Core.Console
import KernelAarch64.Core.Proc
import KernelAarch64.Lib.Steps
import Mathlib.Logic.Function.Basic
import Mathlib.Data.List.FinRange

/-!
# Containers (`core/container.c`)

A container is a scheduler with its process table, and a table of the process ids that it has given
out. A new process gets an id in its container and in every container above.

Containers are named by `κ`. A pointer to a `proc` is a container and an index into the process
table of its scheduler, and a pointer to a scheduler is the container it is a part of.

`allocResource_spec` says what a call does in the whole tree, by induction on the depth of the
container: one entry in each container on the way up, and nothing else. `allocResource_returns` says
that it comes to an end. Over a sequence of calls `Inv` relates the tables to the list of the calls,
and `Reaches.pid_records` is read off it, with the id that `sys_myprint` finds in the root.
-/

namespace KernelAarch64.Core

open KernelAarch64.Lib

/-- `NPROC` -/
abbrev nproc : Nat := 16

/-- `NPID` -/
abbrev npid : Nat := 64

/-- A pointer to a `struct sched_op`. -/
structure SchedOp where
  addr : Nat
  deriving Repr, DecidableEq

/-- `&simple_op` -/
def simpleOp : SchedOp := ⟨0⟩

/-- `&cont->scheduler.ptable.proc[i]`: a pointer to a `struct proc` is one into the table of some
scheduler, and there are no others. -/
structure ProcPtr (κ : Type) where
  cont : κ
  index : Fin nproc
  deriving Repr, DecidableEq

/-- What containers use of `struct proc`. An entry either is a process or stands for the scheduler
of a container, which it then points to. -/
structure ContProc (κ : Type) where
  state : ProcState
  pid : Int
  cont : Option κ
  isScheduler : Bool
  deriving Repr, DecidableEq

/-- `struct pid_mapping`: the id that a process has in this container, and the process. -/
structure PidMapping (κ : Type) where
  valid : Bool
  pidLocal : Int
  p : Option (ProcPtr κ)
  deriving Repr, DecidableEq

/-- What containers use of `struct scheduler`. Its operations are a pointer, since `alloc_container`
sets them to `&simple_op` whatever the caller wants. -/
structure Scheduler (κ : Type) where
  op : Option SchedOp
  proc : Fin nproc → ContProc κ
  pid : Int
  parent : Option κ
  cont : Option κ

/-- `struct container`: the entry by which its parent runs it, its scheduler, the container above,
and the ids it has given out. -/
structure Container (κ : Type) where
  p : Option (ProcPtr κ)
  scheduler : Scheduler κ
  parent : Option κ
  pmap : Fin npid → PidMapping κ

section

variable {κ : Type}

/-- A `proc` after `memset`. -/
def ContProc.zero : ContProc κ := ⟨.unused, 0, none, false⟩

/-- A container after `memset`. -/
def Container.zero : Container κ :=
  ⟨none, ⟨none, fun _ => .zero, 0, none, none⟩, none, fun _ => ⟨false, 0, none⟩⟩

/-- The first entry of `pmap` that is not valid. -/
def Container.freeSlot (c : Container κ) : Option (Fin npid) :=
  (List.finRange npid).find? fun i => !(c.pmap i).valid

/-- The process gets the next id, in the entry `i`. `scheduler.pid` is the id that the next process
gets. -/
def Container.record (c : Container κ) (i : Fin npid) (p : ProcPtr κ) : Container κ :=
  { c with
    scheduler := { c.scheduler with pid := c.scheduler.pid + 1 }
    pmap := Function.update c.pmap i ⟨true, c.scheduler.pid, some p⟩ }

/-- The containers. -/
abbrev Containers (κ : Type) := κ → Container κ

/-- `alloc_resource(this, p, PID)`, with the value at the address that it returns. It calls itself
for the container above; `fuel` bounds how often. -/
def allocResource [DecidableEq κ] (fuel : Nat) (s : Containers κ) (this : Option κ)
    (p : Option (ProcPtr κ)) : Except Stop (Containers κ × Option Int) :=
  match fuel, this, p with
  | _, none, _ => .ok (s, none)
  | _, _, none => .ok (s, none)
  | 0, _, _ => .error .wait
  | fuel + 1, some c, some p =>
    match (s c).freeSlot with
    | none => .error (.panic "alloc_resource : could not allocate new pid.")
    | some i =>
      if (s c).scheduler.pid < 0 then
        .error (.panic "alloc_resource : could not allocate new pid.")
      else do
        let r ← allocResource fuel (Function.update s c ((s c).record i p)) (s c).parent (some p)
        return (r.1, some (s c).scheduler.pid)

/-- The id of a process in the root container, as `sys_myprint` looks it up: the loop goes through
the whole table and keeps the last one that fits, or `-1`. -/
def rootPid [DecidableEq κ] (root : Container κ) (p : ProcPtr κ) : Int :=
  (List.finRange npid).foldl
    (fun rootpid i => if (root.pmap i).valid ∧ (root.pmap i).p = some p
      then (root.pmap i).pidLocal else rootpid) (-1)

variable {s t : Containers κ} {c d k : κ} {p : ProcPtr κ} {fuel : Nat} {i j : Fin npid}

/-! ## The way up

The containers above one, by their parents. `depth` is there for the induction; the code has no such
number. -/

/-- `k` is `c` or a container above it. -/
def Above (s : Containers κ) : κ → κ → Prop :=
  Relation.ReflTransGen fun a b => (s a).parent = some b

/-- The containers form a tree: a parent is nearer to the root than its child, and the root alone
has no parent. -/
structure ContainerTree (s : Containers κ) (depth : κ → Nat) (root : κ) : Prop where
  depth_lt : ∀ c d, (s c).parent = some d → depth d < depth c
  root : ∀ c, (s c).parent = none ↔ c = root

/-- What is above depends on the parents only. -/
theorem Above.iff_of_parent (h : ∀ a, (t a).parent = (s a).parent) : Above t c k ↔ Above s c k := by
  have heq : (fun a b => (t a).parent = some b) = fun a b => (s a).parent = some b := by
    funext a b
    rw [h]
  rw [Above, heq]
  exact Iff.rfl

theorem Above.cases_parent (h : Above s c k) : k = c ∨ ∃ d, (s c).parent = some d ∧ Above s d k := by
  rcases Relation.ReflTransGen.cases_head h with rfl | ⟨d, hd, habove⟩
  · exact .inl rfl
  · exact .inr ⟨d, hd, habove⟩

theorem Above.depth_le {depth : κ → Nat} (hlt : ∀ c d, (s c).parent = some d → depth d < depth c)
    (h : Above s c k) : depth k ≤ depth c := by
  induction h with
  | refl => exact Nat.le_refl _
  | tail _ hparent ih => exact (hlt _ _ hparent).le.trans ih

/-- Every container is below the root. By induction on the depth: the parent is nearer to the root.
-/
theorem ContainerTree.above_root {depth : κ → Nat} {root : κ} (h : ContainerTree s depth root)
    (c : κ) : Above s c root := by
  induction hn : depth c using Nat.strongRecOn generalizing c with
  | _ n ih =>
    cases hparent : (s c).parent with
    | none =>
      rw [(h.root c).mp hparent]
      exact Relation.ReflTransGen.refl
    | some d => exact Relation.ReflTransGen.head hparent (ih _ (hn ▸ h.depth_lt c d hparent) d rfl)

variable [DecidableEq κ]

/-- Giving out an id does not move a container. -/
theorem update_record_parent (a : κ) :
    (Function.update s c ((s c).record i p) a).parent = (s a).parent := by
  by_cases ha : a = c
  · subst ha
    rw [Function.update_self]
    rfl
  · rw [Function.update_of_ne ha]

/-- Above the root there is nothing to do. -/
theorem allocResource_none (fuel : Nat) (s : Containers κ) (p : Option (ProcPtr κ)) :
    allocResource fuel s none p = .ok (s, none) := by
  rw [allocResource]

/-- What a call that returns has done in its own container: it took the free slot there, wrote the
process and the pid into it, and went on with the parent. -/
theorem allocResource_succ {r : Containers κ × Option Int}
    (h : allocResource (fuel + 1) s (some c) (some p) = .ok r) :
    0 ≤ (s c).scheduler.pid ∧ ∃ i, (s c).freeSlot = some i ∧ ∃ v,
      allocResource fuel (Function.update s c ((s c).record i p)) (s c).parent (some p) =
        .ok (r.1, v) ∧ r.2 = some (s c).scheduler.pid := by
  rw [allocResource] at h
  cases hslot : (s c).freeSlot with
  | none =>
    rw [hslot] at h
    cases h
  | some i =>
    rw [hslot] at h
    dsimp only at h
    split at h
    · cases h
    · next hpid =>
      obtain ⟨u, hu, hr⟩ := bind_eq_ok.mp h
      cases hr
      exact ⟨not_lt.mp hpid, i, rfl, u.2, hu, rfl⟩

/-- A call records the process once in each container on the way up, and changes nothing else. The
induction is on the fuel, with the depth that goes down at every step, so that a container is passed
once only. -/
theorem allocResource_spec {depth : κ → Nat} {v : Option Int}
    (hlt : ∀ c d, (s c).parent = some d → depth d < depth c)
    (h : allocResource fuel s (some c) (some p) = .ok (t, v)) :
    v = some (s c).scheduler.pid ∧
    (∀ k, Above s c k → ∃ i, (s k).freeSlot = some i ∧ t k = (s k).record i p) ∧
    ∀ k, ¬Above s c k → t k = s k := by
  induction fuel generalizing s c v with
  | zero => cases h
  | succ fuel ih =>
    obtain ⟨-, i, hslot, w, hrest, rfl⟩ := allocResource_succ h
    refine ⟨rfl, ?_⟩
    have hup := update_record_parent (s := s) (c := c) (p := p) (i := i)
    -- the rest of the call leaves the container alone and sees the others as they were
    have hself : Function.update s c ((s c).record i p) c = (s c).record i p :=
      Function.update_self c _ s
    have hother : ∀ k, k ≠ c → Function.update s c ((s c).record i p) k = s k :=
      fun k hk => Function.update_of_ne hk _ s
    cases hparent : (s c).parent with
    | none =>
      rw [hparent, allocResource_none] at hrest
      cases hrest
      refine ⟨?_, ?_⟩
      · intro k hk
        rcases hk.cases_parent with rfl | ⟨d, hd, -⟩
        · exact ⟨i, hslot, hself⟩
        · rw [hparent] at hd
          cases hd
      · intro k hk
        apply hother k
        rintro rfl
        exact hk Relation.ReflTransGen.refl
    | some d =>
      rw [hparent] at hrest
      obtain ⟨-, hon, hoff⟩ := ih (fun a b hab => hlt a b (hup a ▸ hab)) hrest
      have hbelow : ¬Above s d c := fun hdc =>
        absurd (hdc.depth_le hlt) (not_le.mpr (hlt c d hparent))
      refine ⟨?_, ?_⟩
      · intro k hk
        by_cases hkc : k = c
        · subst hkc
          refine ⟨i, hslot, ?_⟩
          rw [hoff k (by rwa [Above.iff_of_parent hup]), hself]
        · rcases hk.cases_parent with rfl | ⟨d', hd, habove⟩
          · exact absurd rfl hkc
          · rw [hparent] at hd
            cases hd
            obtain ⟨j, hj, ht⟩ := hon k ((Above.iff_of_parent hup).mpr habove)
            rw [hother k hkc] at hj ht
            exact ⟨j, hj, ht⟩
      · intro k hk
        have hkc : k ≠ c := by
          rintro rfl
          exact hk Relation.ReflTransGen.refl
        rw [hoff k ?_, hother k hkc]
        rw [Above.iff_of_parent hup]
        exact fun habove => hk (Relation.ReflTransGen.head hparent habove)

/-- With enough fuel, a call returns or runs out of ids. The depth of the container is enough, since
every call is for the container above. -/
theorem allocResource_returns {depth : κ → Nat}
    (hlt : ∀ c d, (s c).parent = some d → depth d < depth c) (hfuel : depth c < fuel) :
    (∃ r, allocResource fuel s (some c) (some p) = .ok r) ∨
      allocResource fuel s (some c) (some p) =
        .error (.panic "alloc_resource : could not allocate new pid.") := by
  induction fuel generalizing s c with
  | zero => cases hfuel
  | succ fuel ih =>
    rw [allocResource]
    cases hslot : (s c).freeSlot with
    | none => exact .inr rfl
    | some i =>
      dsimp only
      split
      · exact .inr rfl
      · have hup := update_record_parent (s := s) (c := c) (p := p) (i := i)
        cases hparent : (s c).parent with
        | none =>
          rw [allocResource_none]
          exact .inl ⟨_, rfl⟩
        | some d =>
          have hd : depth d < fuel := (hlt c d hparent).trans_le (Nat.lt_succ_iff.mp hfuel)
          rcases ih (fun a b hab => hlt a b (hup a ▸ hab)) hd with ⟨r, hr⟩ | hr
          · rw [hr]
            exact .inl ⟨_, rfl⟩
          · rw [hr]
            exact .inr rfl

/-! ## The ids of one container

The next id is larger than all that were given out, so they are different. -/

/-- The ids given out are positive, different, and less than the next one. The last of these is why
the others stay true when the next one is given out. -/
structure Container.Numbered (c : Container κ) : Prop where
  next : 0 < c.scheduler.pid
  pos : ∀ i, (c.pmap i).valid = true → 0 < (c.pmap i).pidLocal
  lt : ∀ i, (c.pmap i).valid = true → (c.pmap i).pidLocal < c.scheduler.pid
  inj : ∀ i j, (c.pmap i).valid = true → (c.pmap j).valid = true →
    (c.pmap i).pidLocal = (c.pmap j).pidLocal → i = j

omit [DecidableEq κ]

/-- The entry found is not in use. -/
theorem Container.freeSlot_invalid {c : Container κ} (h : c.freeSlot = some i) :
    (c.pmap i).valid = false := by
  simpa using List.find?_some h

theorem Container.record_pmap_self (c : Container κ) :
    (c.record i p).pmap i = ⟨true, c.scheduler.pid, some p⟩ :=
  Function.update_self i _ c.pmap

theorem Container.record_pmap_ne (c : Container κ) (h : j ≠ i) :
    (c.record i p).pmap j = c.pmap j :=
  Function.update_of_ne h _ c.pmap

/-- An entry in use stays, since the one filled in was not. -/
theorem Container.record_keeps {c : Container κ} (hslot : c.freeSlot = some j)
    (hvalid : (c.pmap i).valid = true) :
    (c.record j p).pmap i = c.pmap i := by
  apply c.record_pmap_ne
  rintro rfl
  exact Bool.false_ne_true ((Container.freeSlot_invalid hslot).symm.trans hvalid)

/-- The next id is given out. It is larger than all of before, so it is a new one; the entry was not
in use, so no id is lost. -/
theorem Container.Numbered.record {c : Container κ} (h : c.Numbered) : (c.record i p).Numbered := by
  have hlt : ∀ j, ((c.record i p).pmap j).valid = true → j ≠ i →
      ((c.record i p).pmap j).pidLocal < c.scheduler.pid := by
    intro j hj hji
    rw [c.record_pmap_ne hji] at hj ⊢
    exact h.lt j hj
  refine ⟨?_, ?_, ?_, ?_⟩
  · exact h.next.trans (Int.lt_succ _)
  · intro j hj
    by_cases hji : j = i
    · rw [hji, c.record_pmap_self]
      exact h.next
    · rw [c.record_pmap_ne hji] at hj ⊢
      exact h.pos j hj
  · intro j hj
    show _ < c.scheduler.pid + 1
    by_cases hji : j = i
    · rw [hji, c.record_pmap_self]
      exact Int.lt_succ _
    · exact (hlt j hj hji).trans (Int.lt_succ _)
  · intro j k hj hk hpid
    by_cases hji : j = i <;> by_cases hki : k = i
    · exact hji.trans hki.symm
    · have hless := hlt k hk hki
      rw [← hpid, hji, c.record_pmap_self] at hless
      exact absurd hless (lt_irrefl _)
    · have hless := hlt j hj hji
      rw [hpid, hki, c.record_pmap_self] at hless
      exact absurd hless (lt_irrefl _)
    · rw [c.record_pmap_ne hji] at hj hpid
      rw [c.record_pmap_ne hki] at hk hpid
      exact h.inj j k hj hk hpid

/-- The process has a valid entry. -/
def Container.Has (c : Container κ) (p : ProcPtr κ) (i : Fin npid) : Prop :=
  (c.pmap i).valid = true ∧ (c.pmap i).p = some p

/-- Who has an entry afterwards: those who had one, and the process that was recorded, at the slot
that was free. -/
theorem Container.record_has {c : Container κ} {q : ProcPtr κ} (h : c.freeSlot = some i) :
    (c.record i p).Has q j ↔ c.Has q j ∨ j = i ∧ q = p := by
  by_cases hji : j = i
  · subst hji
    have hinvalid := Container.freeSlot_invalid h
    rw [Container.Has, c.record_pmap_self, Container.Has, hinvalid]
    simp [eq_comm]
  · rw [Container.Has, c.record_pmap_ne hji, Container.Has]
    simp [hji]

variable [DecidableEq κ]

/-- `sys_myprint` finds a positive id if there is one. The loop may meet several entries for the
process, and any of them is positive. -/
theorem Container.Numbered.rootPid_pos {c : Container κ} (h : c.Numbered) (hp : c.Has p i) :
    0 < rootPid c p := by
  have hfold : ∀ (l : List (Fin npid)) (acc : Int), 0 < acc ∨ i ∈ l →
      0 < l.foldl (fun rootpid j => if (c.pmap j).valid ∧ (c.pmap j).p = some p
        then (c.pmap j).pidLocal else rootpid) acc := by
    intro l
    induction l with
    | nil => exact fun acc hacc => hacc.resolve_right (List.not_mem_nil)
    | cons j l ih =>
      intro acc hacc
      rw [List.foldl_cons]
      apply ih
      split
      · next hj => exact .inl (h.pos j hj.1)
      · next hj =>
        refine hacc.imp_right fun hmem => ?_
        rcases List.mem_cons.mp hmem with rfl | hmem
        · exact absurd hp hj
        · exact hmem
  exact hfold _ _ (.inr (List.mem_finRange i))

end

/-! ## Calls in turn

Every process asks for its id once, when it is made. -/

/-- A call `alloc_resource(cont, p, PID)` that has returned `pid`. The list of these is what the
tables are compared with. -/
structure PidGrant (κ : Type) where
  cont : κ
  p : ProcPtr κ
  pid : Int
  deriving Repr, DecidableEq

/-- The containers, and the calls so far that have returned a pid, in their order. The calls of the
parents that a call makes for its own are not among them. -/
structure PidSystem (κ : Type) where
  cont : Containers κ
  log : List (PidGrant κ)

namespace PidSystem

variable {κ : Type} {s t : PidSystem κ} {s₀ : Containers κ} {depth : κ → Nat} {root : κ}

/-- Before the first call. -/
def Fresh (s : Containers κ) : Prop :=
  ∀ k, (s k).scheduler.pid = 1 ∧ ∀ i, ((s k).pmap i).valid = false

/-- The ids agree with the calls so far: the tree is as it was, every container is in order, each
call has its entry, and a process has an entry exactly in the containers above the one it was made
in, one in each. -/
structure Inv (s₀ : Containers κ) (s : PidSystem κ) : Prop where
  parent : ∀ k, (s.cont k).parent = (s₀ k).parent
  numbered : ∀ k, (s.cont k).Numbered
  granted : ∀ x ∈ s.log, ∃ i, (s.cont x.cont).pmap i = ⟨true, x.pid, some x.p⟩
  has_iff : ∀ k p, (∃ i, (s.cont k).Has p i) ↔ ∃ x ∈ s.log, x.p = p ∧ Above s₀ x.cont k
  once : ∀ k p i j, (s.cont k).Has p i → (s.cont k).Has p j → i = j

/-- The invariant before the first call: no slot is in use, and the log is empty, so that the two
agree. -/
theorem Inv.init (h : Fresh s₀) : Inv s₀ ⟨s₀, []⟩ := by
  have hnone : ∀ k p i, ¬(s₀ k).Has p i := fun k p i hi =>
    Bool.false_ne_true (((h k).2 i).symm.trans hi.1)
  refine ⟨fun _ => rfl, ?_, ?_, ?_, ?_⟩
  · intro k
    refine ⟨(h k).1 ▸ Int.one_pos, ?_, ?_, ?_⟩
    · exact fun i hi => absurd hi (by simp [(h k).2 i])
    · exact fun i hi => absurd hi (by simp [(h k).2 i])
    · exact fun i _ hi => absurd hi (by simp [(h k).2 i])
  · exact fun x hx => nomatch hx
  · intro k p
    refine ⟨fun hhas => ?_, fun hlog => ?_⟩
    · obtain ⟨i, hi⟩ := hhas
      exact absurd hi (hnone k p i)
    · obtain ⟨x, hx, -⟩ := hlog
      cases hx
  · exact fun k p i _ hi => absurd hi (hnone k p i)

variable [DecidableEq κ]

/-- A call, with the value read at the address it returns. The depth bounds how often
`alloc_resource` calls itself; a pointer that is `NULL` would be a fault. -/
def step (depth : κ → Nat) (s : PidSystem κ) (a : κ × ProcPtr κ) : Except Stop (PidSystem κ) := do
  let r ← allocResource (depth a.1 + 1) s.cont (some a.1) (some a.2)
  match r.2 with
  | none => .error .fault
  | some pid => .ok ⟨r.1, s.log ++ [⟨a.1, a.2, pid⟩]⟩

/-- Each process gets its id once. -/
def Allowed (s : PidSystem κ) (a : κ × ProcPtr κ) : Prop := ∀ x ∈ s.log, x.p ≠ a.2

instance (s : PidSystem κ) (a : κ × ProcPtr κ) : Decidable (s.Allowed a) :=
  inferInstanceAs (Decidable (∀ x ∈ s.log, x.p ≠ a.2))

/-- The states after any sequence of calls. -/
def Reaches (depth : κ → Nat) (s₀ : Containers κ) : PidSystem κ → Prop :=
  StepsOf (step depth) Allowed ⟨s₀, []⟩

/-- What a call does, in the tree that the containers form from the start. -/
theorem step_spec {a : κ × ProcPtr κ} (htree : ContainerTree s₀ depth root) (h : Inv s₀ s)
    (hstep : s.step depth a = .ok t) :
    t.log = s.log ++ [⟨a.1, a.2, (s.cont a.1).scheduler.pid⟩] ∧
    (∀ k, Above s₀ a.1 k → ∃ i, (s.cont k).freeSlot = some i ∧ t.cont k = (s.cont k).record i a.2) ∧
    ∀ k, ¬Above s₀ a.1 k → t.cont k = s.cont k := by
  obtain ⟨r, hr, hret⟩ := bind_eq_ok.mp hstep
  have hlt : ∀ c d, (s.cont c).parent = some d → depth d < depth c :=
    fun c d hcd => htree.depth_lt c d (h.parent c ▸ hcd)
  obtain ⟨hpid, hon, hoff⟩ := allocResource_spec (t := r.1) (v := r.2) hlt hr
  rw [hpid] at hret
  cases hret
  refine ⟨rfl, ?_, ?_⟩
  · exact fun k hk => hon k ((Above.iff_of_parent h.parent).mpr hk)
  · exact fun k hk => hoff k fun habove => hk ((Above.iff_of_parent h.parent).mp habove)

/-- What holds of a container, and of the container with one more entry, holds after a call. -/
theorem step_forall {a : κ × ProcPtr κ} (htree : ContainerTree s₀ depth root) (h : Inv s₀ s)
    (hstep : s.step depth a = .ok t) {k : κ} {Q : Container κ → Prop} (hs : Q (s.cont k))
    (hrecord : ∀ i, (s.cont k).freeSlot = some i → Q ((s.cont k).record i a.2)) : Q (t.cont k) := by
  obtain ⟨-, hon, hoff⟩ := step_spec htree h hstep
  by_cases hk : Above s₀ a.1 k
  · obtain ⟨i, hi, ht⟩ := hon k hk
    rw [ht]
    exact hrecord i hi
  · rw [hoff k hk]
    exact hs

/-- Who has an entry after a call: whoever had one before, and the process of the call in each
container on the path to the root, at the slot that was the first free one. -/
theorem step_has {a : κ × ProcPtr κ} (htree : ContainerTree s₀ depth root) (h : Inv s₀ s)
    (hstep : s.step depth a = .ok t) (k : κ) (p : ProcPtr κ) (i : Fin npid) :
    (t.cont k).Has p i ↔ (s.cont k).Has p i ∨
      Above s₀ a.1 k ∧ p = a.2 ∧ (s.cont k).freeSlot = some i := by
  obtain ⟨-, hon, hoff⟩ := step_spec htree h hstep
  by_cases hk : Above s₀ a.1 k
  · obtain ⟨j, hj, ht⟩ := hon k hk
    rw [ht, Container.record_has hj, hj]
    simp only [hk, true_and, Option.some.injEq]
    rw [and_comm, eq_comm (a := i)]
  · rw [hoff k hk]
    simp [hk]

omit [DecidableEq κ] in
/-- A process that has no id yet has no entry. -/
theorem Inv.not_has {p : ProcPtr κ} (h : Inv s₀ s) (hnew : ∀ x ∈ s.log, x.p ≠ p) (k : κ)
    (i : Fin npid) : ¬(s.cont k).Has p i := by
  intro hi
  obtain ⟨x, hx, hxp, -⟩ := (h.has_iff k p).mp ⟨i, hi⟩
  exact hnew x hx hxp

/-- The step lemma: the call is added to the list, and its entries are those of the way up. That the
process is a new one is what keeps the entries unique. -/
theorem Inv.step {a : κ × ProcPtr κ} (htree : ContainerTree s₀ depth root) (h : Inv s₀ s)
    (hok : s.Allowed a) (hstep : s.step depth a = .ok t) : Inv s₀ t := by
  obtain ⟨hlog, hon, -⟩ := step_spec htree h hstep
  have hhas := step_has htree h hstep
  refine ⟨?_, ?_, ?_, ?_, ?_⟩
  · exact fun k => step_forall htree h hstep (Q := fun c => c.parent = (s₀ k).parent) (h.parent k)
      fun _ _ => h.parent k
  · exact fun k => step_forall htree h hstep (h.numbered k) fun _ _ => (h.numbered k).record
  · intro x hx
    rw [hlog] at hx
    rcases List.mem_append.mp hx with hx | hx
    · obtain ⟨i, hi⟩ := h.granted x hx
      refine ⟨i, step_forall htree h hstep (Q := fun c => c.pmap i = ⟨true, x.pid, some x.p⟩) hi ?_⟩
      intro j hj
      rw [Container.record_keeps hj (by rw [hi]), hi]
    · obtain rfl := List.mem_singleton.mp hx
      obtain ⟨i, -, ht⟩ := hon a.1 Relation.ReflTransGen.refl
      exact ⟨i, by rw [ht, Container.record_pmap_self]⟩
  · intro k p
    rw [hlog]
    refine ⟨fun hp => ?_, fun hp => ?_⟩
    · obtain ⟨i, hi⟩ := hp
      rcases (hhas k p i).mp hi with hi | hi
      · obtain ⟨x, hx, hxp⟩ := (h.has_iff k p).mp ⟨i, hi⟩
        exact ⟨x, List.mem_append_left _ hx, hxp⟩
      · exact ⟨_, List.mem_append_right _ (List.mem_singleton.mpr rfl), hi.2.1.symm, hi.1⟩
    · obtain ⟨x, hx, hxp, habove⟩ := hp
      rcases List.mem_append.mp hx with hx | hx
      · obtain ⟨i, hi⟩ := (h.has_iff k p).mpr ⟨x, hx, hxp, habove⟩
        exact ⟨i, (hhas k p i).mpr (.inl hi)⟩
      · obtain rfl := List.mem_singleton.mp hx
        obtain ⟨i, hslot, -⟩ := hon k habove
        exact ⟨i, (hhas k p i).mpr (.inr ⟨habove, hxp.symm, hslot⟩)⟩
  · intro k p i j hi hj
    rw [hhas] at hi hj
    rcases hi with hi | hi <;> rcases hj with hj | hj
    · exact h.once k p i j hi hj
    · exact absurd (hj.2.1 ▸ hi) (h.not_has hok k i)
    · exact absurd (hi.2.1 ▸ hj) (h.not_has hok k j)
    · exact Option.some.inj (hi.2.2.symm.trans hj.2.2)

/-- The induction along the calls. -/
theorem Reaches.inv (htree : ContainerTree s₀ depth root) (hfresh : Fresh s₀)
    (h : Reaches depth s₀ s) : Inv s₀ s :=
  Steps.invariant h (Inv.init hfresh) fun _ _ _ hs hok hstep => hs.step htree hok hstep

/-- A call returns, or there is no id left in one of the containers on its way and it panics. No
pointer on the way to the root is `NULL`. -/
theorem Inv.step_returns (htree : ContainerTree s₀ depth root) (h : Inv s₀ s) (a : κ × ProcPtr κ) :
    (∃ t, s.step depth a = .ok t) ∨
      s.step depth a = .error (.panic "alloc_resource : could not allocate new pid.") := by
  have hlt : ∀ c d, (s.cont c).parent = some d → depth d < depth c :=
    fun c d hcd => htree.depth_lt c d (h.parent c ▸ hcd)
  rcases allocResource_returns (p := a.2) hlt (Nat.lt_succ_self (depth a.1)) with ⟨r, hr⟩ | hr
  · obtain ⟨hpid, -⟩ := allocResource_spec (t := r.1) (v := r.2) hlt hr
    refine .inl ⟨⟨r.1, s.log ++ [⟨a.1, a.2, (s.cont a.1).scheduler.pid⟩]⟩, ?_⟩
    rw [PidSystem.step, hr, ok_bind, hpid]
  · rw [PidSystem.step, hr]
    exact .inr rfl

/-- A call gives its process one entry in each container on the way up and leaves the others alone.
In each container the ids are positive and different, the value returned is the id in the container
of the call, and every process has a positive id in the root. -/
theorem Reaches.pid_records (htree : ContainerTree s₀ depth root) (hfresh : Fresh s₀)
    (h : Reaches depth s₀ s) :
    (∀ a, (∃ t, s.step depth a = .ok t) ∨
      s.step depth a = .error (.panic "alloc_resource : could not allocate new pid.")) ∧
    (∀ c p t, s.Allowed (c, p) → s.step depth (c, p) = .ok t →
      (∀ k, Above s₀ c k → ∃ i, ((s.cont k).pmap i).valid = false ∧
        t.cont k = (s.cont k).record i p ∧ ∀ j, (t.cont k).Has p j ↔ j = i) ∧
      (∀ k, ¬Above s₀ c k → t.cont k = s.cont k) ∧
      ∃ pid i, t.log = s.log ++ [⟨c, p, pid⟩] ∧ (t.cont c).pmap i = ⟨true, pid, some p⟩) ∧
    (∀ k i, ((s.cont k).pmap i).valid = true → 0 < ((s.cont k).pmap i).pidLocal) ∧
    (∀ k i j, ((s.cont k).pmap i).valid = true → ((s.cont k).pmap j).valid = true →
      ((s.cont k).pmap i).pidLocal = ((s.cont k).pmap j).pidLocal → i = j) ∧
    (∀ x ∈ s.log, ∃ i, (s.cont x.cont).pmap i = ⟨true, x.pid, some x.p⟩) ∧
    ∀ x ∈ s.log, 0 < rootPid (s.cont root) x.p := by
  have hinv := h.inv htree hfresh
  refine ⟨hinv.step_returns htree, ?_, fun k => (hinv.numbered k).pos,
    fun k => (hinv.numbered k).inj, hinv.granted, ?_⟩
  · intro c p t hok hstep
    obtain ⟨hlog, hon, hoff⟩ := step_spec htree hinv hstep
    refine ⟨?_, hoff, ?_⟩
    · intro k hk
      obtain ⟨i, hslot, ht⟩ := hon k hk
      refine ⟨i, Container.freeSlot_invalid hslot, ht, fun j => ?_⟩
      rw [ht, Container.record_has hslot]
      simp [hinv.not_has hok k j]
    · obtain ⟨i, -, ht⟩ := hon c Relation.ReflTransGen.refl
      exact ⟨_, i, hlog, by rw [ht, Container.record_pmap_self]⟩
  · intro x hx
    obtain ⟨i, hi⟩ := (hinv.has_iff root x.p).mpr ⟨x, hx, rfl, htree.above_root x.cont⟩
    exact (hinv.numbered root).rootPid_pos hi

/-- A root and a container below it, both with no ids given out yet. -/
def twoContainers : Containers Bool := fun k =>
  { Container.zero with
    scheduler := { (Container.zero : Container Bool).scheduler with pid := 1 }
    parent := if k then some false else none }

theorem pid_records_two : ∃ s : PidSystem Bool,
    Reaches Bool.toNat twoContainers s ∧
    s.log = [⟨true, ⟨true, 0⟩, 1⟩, ⟨false, ⟨false, 0⟩, 2⟩, ⟨true, ⟨true, 1⟩, 2⟩] ∧
    ∀ x ∈ s.log, 0 < rootPid (s.cont false) x.p := by
  have htree : ContainerTree twoContainers Bool.toNat false := ⟨by decide, by decide⟩
  have hfresh : Fresh twoContainers := fun _ => ⟨rfl, fun _ => rfl⟩
  obtain ⟨s, hrun, hlog⟩ : ∃ s, runList (step Bool.toNat) Allowed ⟨twoContainers, []⟩
      [(true, ⟨true, 0⟩), (false, ⟨false, 0⟩), (true, ⟨true, 1⟩)] = some s ∧
      s.log = [⟨true, ⟨true, 0⟩, 1⟩, ⟨false, ⟨false, 0⟩, 2⟩, ⟨true, ⟨true, 1⟩, 2⟩] :=
    ⟨_, rfl, rfl⟩
  have hreach : Reaches Bool.toNat twoContainers s := StepsOf.of_runList hrun
  exact ⟨s, hreach, hlog, (hreach.pid_records htree hfresh).2.2.2.2.2⟩

end PidSystem

end KernelAarch64.Core
