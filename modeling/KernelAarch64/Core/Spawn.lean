import KernelAarch64.Core.Container

/-!
# The tree of containers (`core/container.c`, `core/sched.c`)

`spawn_container(this, op)` makes a container below `this`. The entry of the process table by which
the new scheduler is run comes from `alloc_pcb`, which takes it from the scheduler of the CPU,
whatever `this` is; and `alloc_container` sets the operations before it can know `op`.

Containers are numbered in the order of their allocation.

A call is `alloc_pcb_simple`, some assignments, and the links of the new container. What is to be
shown of it is that it leaves the older containers consistent (`Container.Keeps`), and how it ties
the new one in (`Linked`). Then `Linked.consistent_call_iff` says which calls make a container whose
links agree, and `Reaches.consistent_iff` says the same of every container of a run, since nothing
later changes it.
-/

namespace KernelAarch64.Core

open KernelAarch64.Lib

/-- The entry `i` of the process table changes. -/
def Container.setProc {κ : Type} (c : Container κ) (i : Fin nproc) (p : ContProc κ) : Container κ :=
  { c with scheduler := { c.scheduler with proc := Function.update c.scheduler.proc i p } }

/-- `*p` -/
def Containers.proc {κ : Type} (s : Containers κ) (p : ProcPtr κ) : ContProc κ :=
  (s p.cont).scheduler.proc p.index

/-- `*p` changes, where `p` points to an entry of the process table of a container. The other
containers and entries stay. -/
def Containers.setProc {κ : Type} [DecidableEq κ] (s : Containers κ) (p : ProcPtr κ)
    (q : ContProc κ) : Containers κ :=
  Function.update s p.cont ((s p.cont).setProc p.index q)

/-- A `proc` after `memset` and `p->state = EMBRYO`. -/
def ContProc.embryo {κ : Type} : ContProc κ := { zero with state := .embryo }

/-- `alloc_pcb_simple(this)`, while other CPUs have the locks of the entries `busy`. -/
def allocPcbSimple (s : Containers Nat) (this : Nat) (busy : Fin nproc → Bool) :
    Except Stop (Containers Nat × Option (ProcPtr Nat)) :=
  match (List.finRange nproc).find? fun i =>
      !busy i && decide (((s this).scheduler.proc i).state = .unused) with
  | none => .ok (s, none)
  | some i => do
    let p : ProcPtr Nat := ⟨this, i⟩
    let s : Containers Nat := s.setProc p .embryo
    let r ← allocResource (this + 1) s (s this).scheduler.cont (some p)
    match r.2 with
    | none => .error .fault
    | some pid => .ok (Containers.setProc r.1 p { Containers.proc r.1 p with pid := pid }, some p)

/-- A container as `alloc_container` sets it up at first. The operations are `simple_op`, whatever
the caller of `spawn_container` has asked for. -/
def newContainer (n : Nat) : Container Nat :=
  { Container.zero with
    scheduler := { (Container.zero : Container Nat).scheduler with
      op := some simpleOp, cont := some n, pid := 1 } }

/-- `alloc_container(false)` for the container `n`, on a CPU that runs the scheduler of
`current`. -/
def allocContainer (s : Containers Nat) (n current : Nat) (busy : Fin nproc → Bool) :
    Except Stop (Containers Nat × ProcPtr Nat) := do
  let r ← allocPcbSimple (Function.update s n (newContainer n)) current busy
  match r.2 with
  | none => .error .fault
  | some p =>
    let s : Containers Nat := Function.update r.1 n { r.1 n with p := some p }
    return (s.setProc p { s.proc p with isScheduler := true, cont := some n }, p)

/-- A call `spawn_container(this, op)` on a CPU that runs the scheduler of `current`, while other
CPUs have the locks of the entries `busy` of its process table. -/
structure SpawnCall where
  current : Nat
  busy : Fin nproc → Bool
  this : Nat
  op : SchedOp

/-- The containers below `count`, and the calls that made them, the first one first. The root has no
call. -/
structure SpawnSystem where
  count : Nat
  cont : Containers Nat
  calls : List SpawnCall

namespace SpawnSystem

/-- `init_container` -/
def initContainer : SpawnSystem :=
  ⟨1, fun n => if n = 0 then newContainer 0 else Container.zero, []⟩

/-- `spawn_container(this, op)`: a container from `alloc_container`, its entry made `RUNNABLE`, and
the two links to the parent. `op` is passed on and never used. -/
def spawnContainer (s : SpawnSystem) (a : SpawnCall) : Except Stop SpawnSystem := do
  let n := s.count
  let r ← allocContainer s.cont n a.current a.busy
  let cont : Containers Nat := Containers.setProc r.1 r.2 { Containers.proc r.1 r.2 with
    state := .runnable }
  let c : Container Nat := cont n
  return ⟨n + 1,
    Function.update cont n { c with
      parent := some a.this, scheduler := { c.scheduler with parent := some a.this } },
    s.calls ++ [a]⟩

/-- The containers of a call exist. -/
def Allowed (s : SpawnSystem) (a : SpawnCall) : Prop := a.current < s.count ∧ a.this < s.count

instance (s : SpawnSystem) (a : SpawnCall) : Decidable (s.Allowed a) :=
  inferInstanceAs (Decidable (_ ∧ _))

/-- The states after any sequence of calls. -/
def Reaches : SpawnSystem → Prop := StepsOf spawnContainer Allowed initContainer

/-- The container `c`, made with `op`, is tied into the tree by the entry `p` of the table of
`q`. -/
structure Tied (s : Containers Nat) (c : Nat) (op : SchedOp) (p : ProcPtr Nat) (q : Nat) : Prop where
  ptr : (s c).p = some p
  parent : (s c).parent = some q
  table : p.cont = q
  isScheduler : (s.proc p).isScheduler = true
  cont : (s.proc p).cont = some c
  schedulerParent : (s c).scheduler.parent = some q
  schedulerCont : (s c).scheduler.cont = some c
  schedulerOp : (s c).scheduler.op = some op
  pid : ∃ i, (s q).pmap i = ⟨true, (s.proc p).pid, some p⟩
  pids : ∀ k, Above s q k → ∃ i, (s k).Has p i

/-- The links of the container `c`, made with `op`, agree. -/
def Consistent (s : Containers Nat) (c : Nat) (op : SchedOp) : Prop := ∃ p q, Tied s c op p q

end SpawnSystem

/-! ## What a call leaves as it was

A call writes to the entry that it has got, to `pmap` of its container and of those above, and to
the new container. All the rest is as before, which `Container.Keeps` records for one container. -/

/-- Nothing is lost: entries in use and ids given out stay, and the links are the same. It is what a
later call leaves of a container. -/
structure Container.Keeps {κ : Type} (a b : Container κ) : Prop where
  p : b.p = a.p
  parent : b.parent = a.parent
  op : b.scheduler.op = a.scheduler.op
  schedulerParent : b.scheduler.parent = a.scheduler.parent
  schedulerCont : b.scheduler.cont = a.scheduler.cont
  proc : ∀ i, (a.scheduler.proc i).state ≠ .unused → b.scheduler.proc i = a.scheduler.proc i
  pmap : ∀ i, (a.pmap i).valid = true → b.pmap i = a.pmap i

namespace Container.Keeps

variable {κ : Type} {a b : Container κ} {i : Fin nproc} {j : Fin npid} {p : ProcPtr κ}
  {q : ContProc κ}

theorem refl (a : Container κ) : a.Keeps a :=
  ⟨rfl, rfl, rfl, rfl, rfl, fun _ _ => rfl, fun _ _ => rfl⟩

theorem record (h : a.Keeps b) (hslot : b.freeSlot = some j) (hpmap : b.pmap = a.pmap) :
    a.Keeps (b.record j p) :=
  ⟨h.p, h.parent, h.op, h.schedulerParent, h.schedulerCont, h.proc, fun _ hi =>
    (Container.record_keeps hslot (hpmap ▸ hi)).trans (hpmap ▸ rfl)⟩

/-- An entry that was not in use may be filled in. -/
theorem setProc (h : a.Keeps b) (hunused : (a.scheduler.proc i).state = .unused) :
    a.Keeps (b.setProc i q) := by
  refine ⟨h.p, h.parent, h.op, h.schedulerParent, h.schedulerCont, ?_, h.pmap⟩
  intro k hk
  have hki : k ≠ i := fun hki => hk (hki ▸ hunused)
  exact (Function.update_of_ne hki _ _).trans (h.proc k hk)

/-- An id that was given out is still there. -/
theorem has (h : a.Keeps b) (hj : a.Has p j) : b.Has p j := by
  rw [Container.Has, h.pmap j hj.1]
  exact hj

end Container.Keeps

namespace Containers

variable {κ : Type} [DecidableEq κ] {s t : Containers κ} {p : ProcPtr κ} {q : ContProc κ} {k : κ}

theorem setProc_proc : (s.setProc p q).proc p = q := by
  simp [Containers.proc, Containers.setProc, Container.setProc]

/-- A container after a change of an entry that may be its own. -/
theorem setProc_cases :
    s.setProc p q k = s k ∨ k = p.cont ∧ s.setProc p q k = (s k).setProc p.index q := by
  by_cases hk : k = p.cont
  · subst hk
    exact .inr ⟨rfl, Function.update_self p.cont _ s⟩
  · exact .inl (Function.update_of_ne hk _ s)

/-- A change of an entry is none of the ids. -/
theorem setProc_pmap : (s.setProc p q k).pmap = (s k).pmap := by
  rcases setProc_cases (s := s) (p := p) (q := q) (k := k) with h | ⟨-, h⟩ <;> rw [h]
  rfl

/-- The same, for all containers. -/
theorem keeps_setProc (h : (s k).Keeps (t k)) (hunused : (s.proc p).state = .unused) :
    (s k).Keeps (t.setProc p q k) := by
  rcases setProc_cases (s := t) (p := p) (q := q) (k := k) with hk | ⟨rfl, hk⟩
  · rw [hk]
    exact h
  · rw [hk]
    exact h.setProc hunused

end Containers

variable {s t : Containers Nat} {this : Nat} {busy : Fin nproc → Bool} {p : ProcPtr Nat}

/-- `alloc_pcb` fills in an entry of the table of `this` and records its id in `this` and above. The
entry was unused, so no container loses anything by it. -/
theorem allocPcbSimple_spec {r : Containers Nat × Option (ProcPtr Nat)}
    (hlt : ∀ c d, (s c).parent = some d → d < c) (hcont : (s this).scheduler.cont = some this)
    (h : allocPcbSimple s this busy = .ok r) (hp : r.2 = some p) :
    p.cont = this ∧ (s.proc p).state = .unused ∧ (∀ k, (s k).Keeps (r.1 k)) ∧
    (Containers.proc r.1 p).state = .embryo ∧
    (∃ i, (r.1 this).pmap i = ⟨true, (Containers.proc r.1 p).pid, some p⟩) ∧
    ∀ k, Above s this k → ∃ i, (r.1 k).Has p i := by
  rw [allocPcbSimple] at h
  split at h
  · cases h
    cases hp
  · next i hfind =>
    have hunused : (s.proc ⟨this, i⟩).state = .unused := by
      have hi := List.find?_some hfind
      simp only [Bool.and_eq_true, decide_eq_true_eq] at hi
      exact hi.2
    -- the entry is cleared, ...
    dsimp only at h
    generalize hs₁ : s.setProc ⟨this, i⟩ .embryo = s₁ at h
    have hkeeps₁ : ∀ k, (s k).Keeps (s₁ k) := by
      subst hs₁
      exact fun k => Containers.keeps_setProc (.refl _) hunused
    have hpmap₁ : ∀ k, (s₁ k).pmap = (s k).pmap := by
      subst hs₁
      exact fun k => Containers.setProc_pmap
    have hproc₁ : s₁.proc ⟨this, i⟩ = .embryo := by
      subst hs₁
      exact Containers.setProc_proc
    -- ... gets its id, ...
    rw [(hkeeps₁ this).schedulerCont, hcont] at h
    obtain ⟨u, hu, hret⟩ := bind_eq_ok.mp h
    have hlt₁ : ∀ c d, (s₁ c).parent = some d → id d < id c :=
      fun c d hcd => hlt c d ((hkeeps₁ c).parent ▸ hcd)
    obtain ⟨hpid, hon, hoff⟩ := allocResource_spec (t := u.1) (v := u.2) hlt₁ hu
    have hkeeps₂ : ∀ k, (s k).Keeps (u.1 k) := by
      intro k
      by_cases hk : Above s₁ this k
      · obtain ⟨j, hj, ht⟩ := hon k hk
        rw [ht]
        exact (hkeeps₁ k).record hj (hpmap₁ k)
      · rw [hoff k hk]
        exact hkeeps₁ k
    obtain ⟨j, hj, ht⟩ := hon this Relation.ReflTransGen.refl
    have hproc₂ : Containers.proc u.1 ⟨this, i⟩ = .embryo := by
      rw [Containers.proc, ht]
      exact hproc₁
    -- ... and keeps it
    rw [hpid] at hret
    cases hret
    cases hp
    refine ⟨rfl, hunused, fun k => Containers.keeps_setProc (hkeeps₂ k) hunused, ?_, ?_, ?_⟩
    · rw [Containers.setProc_proc, hproc₂]
      rfl
    · refine ⟨j, ?_⟩
      rw [Containers.setProc_pmap, Containers.setProc_proc, ht, Container.record_pmap_self]
    · intro k hk
      obtain ⟨j, hj, ht⟩ := hon k ((Above.iff_of_parent fun a => (hkeeps₁ a).parent).mpr hk)
      refine ⟨j, ?_⟩
      rw [Container.Has, Containers.setProc_pmap, ht, Container.record_pmap_self]
      exact ⟨rfl, rfl⟩

/-- The container `n` with its entry `p`, once both are set up. It is the closed form of several
assignments in two functions. -/
def Containers.tie (s : Containers Nat) (n : Nat) (p : ProcPtr Nat) (this : Nat) : Containers Nat :=
  Function.update
    (s.setProc p { s.proc p with state := .runnable, isScheduler := true, cont := some n }) n
    { s n with
      p := some p, parent := some this, scheduler := { (s n).scheduler with parent := some this } }

/-- The assignments of `alloc_container` and `spawn_container` after `alloc_pcb`, taken together.
The entry is one of another container, so they do not get into each other's way. -/
theorem tie_eq {s : Containers Nat} {n this : Nat} {p : ProcPtr Nat} (hne : p.cont ≠ n) :
    let s₁ : Containers Nat := Function.update s n { s n with p := some p }
    let s₂ := s₁.setProc p { s₁.proc p with isScheduler := true, cont := some n }
    let s₃ := s₂.setProc p { s₂.proc p with state := .runnable }
    Function.update s₃ n { s₃ n with
      parent := some this, scheduler := { (s₃ n).scheduler with parent := some this } } =
    s.tie n p this := by
  intro s₁ s₂ s₃
  have h₁ : s₁ p.cont = s p.cont := Function.update_of_ne hne _ _
  have hn : s₃ n = { s n with p := some p } := by
    show Function.update (Function.update s₁ _ _) _ _ n = _
    rw [Function.update_of_ne hne.symm, Function.update_of_ne hne.symm]
    exact Function.update_self ..
  rw [hn]
  funext k
  rw [Containers.tie]
  by_cases hk : k = n
  · subst hk
    rw [Function.update_self, Function.update_self]
  · rw [Function.update_of_ne hk, Function.update_of_ne hk]
    by_cases hkp : k = p.cont
    · subst hkp
      simp [s₃, s₂, Containers.setProc, Containers.proc, Container.setProc, h₁]
    · show Function.update (Function.update s₁ _ _) _ _ k = Function.update s _ _ k
      rw [Function.update_of_ne hkp, Function.update_of_ne hkp, Function.update_of_ne hkp]
      exact Function.update_of_ne hk _ _

section Tie

variable {n k : Nat}

theorem tie_self : s.tie n p this n = { s n with
    p := some p, parent := some this
    scheduler := { (s n).scheduler with parent := some this } } :=
  Function.update_self ..

/-- The others see the change of the entry. -/
theorem tie_of_ne (hk : k ≠ n) : s.tie n p this k =
    s.setProc p { s.proc p with state := .runnable, isScheduler := true, cont := some n } k :=
  Function.update_of_ne hk _ _

/-- The entry of the new container. -/
theorem tie_proc (hp : p.cont ≠ n) : (s.tie n p this).proc p =
    { s.proc p with state := .runnable, isScheduler := true, cont := some n } := by
  rw [Containers.proc, tie_of_ne hp]
  exact Containers.setProc_proc

theorem tie_pmap : (s.tie n p this k).pmap = (s k).pmap := by
  by_cases hk : k = n
  · rw [hk, tie_self]
  · rw [tie_of_ne hk, Containers.setProc_pmap]

end Tie

/-- The way up from `c` passes only containers made before. -/
theorem Above.below {c k n : Nat} (hlt : ∀ c d, (s c).parent = some d → d < c)
    (heq : ∀ a < n, (t a).parent = (s a).parent) (hc : c < n) (h : Above t c k) : Above s c k := by
  induction h using Relation.ReflTransGen.head_induction_on with
  | refl => exact Relation.ReflTransGen.refl
  | head hparent _ ih =>
    rw [heq _ hc] at hparent
    exact Relation.ReflTransGen.head hparent (ih ((hlt _ _ hparent).trans hc))

namespace SpawnSystem

/-- How the call `a` ties the container `c` into the tree: its entry is one of the table of the
scheduler that the CPU was in, while its parent is the one that was asked for. -/
structure Linked (s : Containers Nat) (c : Nat) (a : SpawnCall) (p : ProcPtr Nat) : Prop where
  ptr : (s c).p = some p
  table : p.cont = a.current
  used : (s.proc p).state ≠ .unused
  isScheduler : (s.proc p).isScheduler = true
  cont : (s.proc p).cont = some c
  parent : (s c).parent = some a.this
  schedulerParent : (s c).scheduler.parent = some a.this
  schedulerCont : (s c).scheduler.cont = some c
  schedulerOp : (s c).scheduler.op = some simpleOp
  pid : ∃ i, (s a.current).pmap i = ⟨true, (s.proc p).pid, some p⟩
  pids : ∀ k, Above s a.current k → ∃ i, (s k).Has p i

/-- The container is as it should be if and only if its entry comes from the table of its parent and
its operations are those that every container gets. -/
theorem Linked.consistent_call_iff {c : Nat} {a : SpawnCall} (h : Linked s c a p) :
    Consistent s c a.op ↔ a.current = a.this ∧ a.op = simpleOp := by
  refine ⟨fun hcons => ?_, fun hcons => ?_⟩
  · obtain ⟨p', q, hp'⟩ := hcons
    obtain rfl : p' = p := Option.some.inj (hp'.ptr.symm.trans h.ptr)
    obtain rfl : q = a.this := Option.some.inj (hp'.parent.symm.trans h.parent)
    refine ⟨h.table.symm.trans hp'.table, ?_⟩
    exact Option.some.inj (hp'.schedulerOp.symm.trans h.schedulerOp)
  · obtain ⟨hcur, hop⟩ := hcons
    refine ⟨p, a.this, h.ptr, h.parent, h.table.trans hcur, h.isScheduler, h.cont,
      h.schedulerParent, h.schedulerCont, hop ▸ h.schedulerOp, ?_, ?_⟩
    · rw [← hcur]
      exact h.pid
    · rw [← hcur]
      exact h.pids

variable {s t : SpawnSystem} {a : SpawnCall}

/-- Parents are made before their children, and every scheduler knows its container. -/
structure Inv (s : SpawnSystem) : Prop where
  lt : ∀ c d, (s.cont c).parent = some d → d < c
  cont : ∀ c < s.count, (s.cont c).scheduler.cont = some c
  length : s.count = s.calls.length + 1
  linked : ∀ i a, s.calls[i]? = some a → a.current ≤ i ∧ ∃ p, Linked s.cont (i + 1) a p

/-- What a later call leaves of a container that is tied in: its entry, the pids of that entry and
what the container itself says of its place are as they were. -/
theorem Linked.keep {n c : Nat} {s t : Containers Nat} {a : SpawnCall} (h : Linked s c a p)
    (hlt : ∀ c d, (s c).parent = some d → d < c) (hkeeps : ∀ k < n, (s k).Keeps (t k)) (hc : c < n)
    (hcur : a.current < n) : Linked t c a p := by
  have hproc : t.proc p = s.proc p := (hkeeps p.cont (h.table ▸ hcur)).proc p.index h.used
  have hkc := hkeeps c hc
  refine ⟨hkc.p.trans h.ptr, h.table, hproc ▸ h.used, hproc ▸ h.isScheduler, hproc ▸ h.cont,
    hkc.parent.trans h.parent, hkc.schedulerParent.trans h.schedulerParent,
    hkc.schedulerCont.trans h.schedulerCont, hkc.op.trans h.schedulerOp, ?_, ?_⟩
  · obtain ⟨i, hi⟩ := h.pid
    refine ⟨i, ?_⟩
    rw [(hkeeps _ hcur).pmap i (by rw [hi]), hi, hproc]
  · intro k hk
    have hk' := Above.below hlt (fun a ha => (hkeeps a ha).parent) hcur hk
    obtain ⟨i, hi⟩ := h.pids k hk'
    have hle : id k ≤ id a.current := hk'.depth_le hlt
    exact ⟨i, (hkeeps k (hle.trans_lt hcur)).has hi⟩

/-- The container under construction, before it gets its entry. -/
def prepared (s : SpawnSystem) : Containers Nat :=
  Function.update s.cont s.count (newContainer s.count)

/-- The container under construction. -/
theorem prepared_self : s.prepared s.count = newContainer s.count := Function.update_self ..

theorem prepared_of_ne {k : Nat} (hk : k ≠ s.count) : s.prepared k = s.cont k :=
  Function.update_of_ne hk _ _

theorem Inv.prepared_lt (h : s.Inv) (c d : Nat) (hcd : (s.prepared c).parent = some d) : d < c := by
  by_cases hc : c = s.count
  · rw [hc, prepared_self] at hcd
    cases hcd
  · rw [prepared_of_ne hc] at hcd
    exact h.lt c d hcd

/-- A call that returns has got an entry from `alloc_pcb_simple`. If that is not one of the new
container itself, the tie is all that it has done beside the allocation. -/
theorem spawnContainer_ok (h : s.spawnContainer a = .ok t) : ∃ u p,
    allocPcbSimple s.prepared a.current a.busy = .ok u ∧ u.2 = some p ∧
    (p.cont ≠ s.count → t = ⟨s.count + 1, u.1.tie s.count p a.this, s.calls ++ [a]⟩) := by
  obtain ⟨r, hr, hret⟩ := bind_eq_ok.mp h
  obtain ⟨u, hu, hr⟩ := bind_eq_ok.mp hr
  cases hp : u.2 with
  | none =>
    rw [hp] at hr
    cases hr
  | some p =>
    rw [hp] at hr
    cases hr
    cases hret
    exact ⟨u, p, hu, hp, fun hne => congrArg (SpawnSystem.mk _ · _) (tie_eq hne)⟩

/-- What a call does: there is one container more, the others keep what they have, and the new one
is linked as the call says. -/
theorem spawnContainer_spec (hinv : s.Inv) (hok : s.Allowed a) (h : s.spawnContainer a = .ok t) :
    t.count = s.count + 1 ∧ t.calls = s.calls ++ [a] ∧
    (∀ k, k ≠ s.count → (s.cont k).Keeps (t.cont k)) ∧ ∃ p, Linked t.cont s.count a p := by
  obtain ⟨u, p, hu, hp, ht⟩ := spawnContainer_ok h
  have hne : a.current ≠ s.count := hok.1.ne
  obtain ⟨htable, hunused, hkeeps, -, hpid, hpids⟩ := allocPcbSimple_spec hinv.prepared_lt
    (by rw [prepared_of_ne hne]; exact hinv.cont _ hok.1) hu hp
  have hpne : p.cont ≠ s.count := htable ▸ hne
  obtain rfl := ht hpne
  -- The other containers get an id more at most.
  have hkept : ∀ k, k ≠ s.count → (s.prepared k).Keeps (u.1.tie s.count p a.this k) := by
    intro k hk
    rw [tie_of_ne hk]
    exact Containers.keeps_setProc (hkeeps k) hunused
  have hfresh := hkeeps s.count
  rw [prepared_self] at hfresh
  have hproc : (u.1.tie s.count p a.this).proc p = _ := tie_proc hpne
  refine ⟨rfl, rfl, fun k hk => prepared_of_ne hk ▸ hkept k hk, p, ?_⟩
  show Linked (u.1.tie s.count p a.this) s.count a p
  constructor
  case ptr => rw [tie_self]
  case table => exact htable
  case used =>
    rw [hproc]
    exact ProcState.noConfusion
  case isScheduler => rw [hproc]
  case cont => rw [hproc]
  case parent => rw [tie_self]
  case schedulerParent => rw [tie_self]
  case schedulerCont =>
    rw [tie_self]
    exact hfresh.schedulerCont
  case schedulerOp =>
    rw [tie_self]
    exact hfresh.op
  case pid =>
    obtain ⟨i, hi⟩ := hpid
    refine ⟨i, ?_⟩
    rw [tie_pmap, hproc]
    exact hi
  -- What is above the new container is above the one that spawns it, which is not changed.
  case pids =>
    intro k hk
    have hk' : Above s.prepared a.current k := by
      refine Above.below (n := s.count) hinv.prepared_lt (fun b hb => ?_) hok.1 hk
      exact (hkept b hb.ne).parent
    obtain ⟨i, hi⟩ := hpids k hk'
    refine ⟨i, ?_⟩
    rw [Container.Has, tie_pmap]
    exact hi

/-- The root has no parent, and there have been no calls, so that nothing is said of other
containers yet. -/
theorem Inv.init : initContainer.Inv := by
  refine ⟨?_, ?_, rfl, ?_⟩
  · intro c d hcd
    by_cases hc : c = 0
    · rw [show initContainer.cont c = newContainer 0 from if_pos hc] at hcd
      cases hcd
    · rw [show initContainer.cont c = Container.zero from if_neg hc] at hcd
      cases hcd
  · intro c hc
    obtain rfl : c = 0 := Nat.lt_one_iff.mp hc
    rfl
  · intro i a ha
    cases ha

/-- The step lemma. A container of before is the same but for its entries; the new one is below
`this`, which was made before. -/
theorem Inv.spawnContainer (hinv : s.Inv) (hok : s.Allowed a) (h : s.spawnContainer a = .ok t) :
    t.Inv := by
  obtain ⟨hcount, hcalls, hkeeps, p, hp⟩ := spawnContainer_spec hinv hok h
  refine ⟨?_, ?_, ?_, ?_⟩
  · intro c d hcd
    by_cases hc : c = s.count
    · subst hc
      obtain rfl : d = a.this := Option.some.inj (hcd.symm.trans hp.parent)
      exact hok.2
    · rw [(hkeeps c hc).parent] at hcd
      exact hinv.lt c d hcd
  · intro c hc
    by_cases hcn : c = s.count
    · subst hcn
      exact hp.schedulerCont
    · rw [(hkeeps c hcn).schedulerCont]
      exact hinv.cont c (by omega)
  · rw [hcount, hcalls, hinv.length, List.length_append]
    rfl
  · intro i b hb
    rw [hcalls] at hb
    rcases Nat.lt_or_ge i s.calls.length with hi | hi
    · rw [List.getElem?_append_left hi] at hb
      obtain ⟨hcur, q, hq⟩ := hinv.linked i b hb
      have hlen := hinv.length
      exact ⟨hcur, q, hq.keep hinv.lt (fun k hk => hkeeps k hk.ne) (by omega) (by omega)⟩
    · rw [List.getElem?_append_right hi] at hb
      obtain ⟨hlast, hba⟩ := List.getElem?_eq_some_iff.mp hb
      obtain rfl : a = b := by simpa using hba
      have hlen := hinv.length
      have hcurrent := hok.1
      have hnew : s.count = i + 1 := by
        simp only [List.length_singleton] at hlast
        omega
      refine ⟨by omega, p, ?_⟩
      rw [← hnew]
      exact hp

/-- The induction along a run. -/
theorem Reaches.inv (h : Reaches s) : s.Inv :=
  Steps.invariant h Inv.init fun _ _ _ hs hok hstep => hs.spawnContainer hok hstep

/-- After any sequence of calls, the links of a container agree if and only if it was made below the
container whose scheduler the CPU was running, and with `simple_op`. -/
theorem Reaches.consistent_iff (h : Reaches s) {c : Nat} (hpos : 0 < c) (hc : c < s.count) :
    ∃ a, s.calls[c - 1]? = some a ∧
      (Consistent s.cont c a.op ↔ a.current = a.this ∧ a.op = simpleOp) := by
  have hlen := h.inv.length
  have hcall : s.calls[c - 1]? = some s.calls[c - 1] := List.getElem?_eq_getElem (by omega)
  refine ⟨s.calls[c - 1], hcall, ?_⟩
  obtain ⟨-, p, hp⟩ := h.inv.linked (c - 1) _ hcall
  rw [Nat.sub_add_cancel hpos] at hp
  exact hp.consistent_call_iff

/-- On a CPU that runs the root scheduler. -/
def rootCall (this : Nat) (op : SchedOp) : SpawnCall := ⟨0, fun _ => false, this, op⟩

/-- A container below the first one, and one with operations of its own. -/
theorem spawn_inconsistent : ∃ s, Reaches s ∧
    s.calls[1]? = some (rootCall 1 simpleOp) ∧ ¬Consistent s.cont 2 simpleOp ∧
    s.calls[2]? = some (rootCall 0 ⟨1⟩) ∧ ¬Consistent s.cont 3 ⟨1⟩ := by
  obtain ⟨s, hrun, h₁, h₂⟩ : ∃ s, runList spawnContainer Allowed initContainer
      [rootCall 0 simpleOp, rootCall 1 simpleOp, rootCall 0 ⟨1⟩] = some s ∧
      s.calls[1]? = some (rootCall 1 simpleOp) ∧ s.calls[2]? = some (rootCall 0 ⟨1⟩) :=
    ⟨_, rfl, rfl, rfl⟩
  have hreach : Reaches s := StepsOf.of_runList hrun
  obtain ⟨-, p₁, hp₁⟩ := hreach.inv.linked 1 _ h₁
  obtain ⟨-, p₂, hp₂⟩ := hreach.inv.linked 2 _ h₂
  refine ⟨s, hreach, h₁, fun hcons => ?_, h₂, fun hcons => ?_⟩
  · exact absurd (hp₁.consistent_call_iff.mp hcons).1 (by decide)
  · exact absurd (hp₂.consistent_call_iff.mp hcons).2 (by decide)

/-- A container below the root, and one below it, each made by its parent. -/
theorem consistent_iff_nested : ∃ s, Reaches s ∧ s.count = 3 ∧
    Consistent s.cont 1 simpleOp ∧ Consistent s.cont 2 simpleOp := by
  obtain ⟨s, hrun, hcount, h₁, h₂⟩ : ∃ s, runList spawnContainer Allowed initContainer
      [rootCall 0 simpleOp, ⟨1, fun _ => false, 1, simpleOp⟩] = some s ∧ s.count = 3 ∧
      s.calls[0]? = some (rootCall 0 simpleOp) ∧
      s.calls[1]? = some ⟨1, fun _ => false, 1, simpleOp⟩ :=
    ⟨_, rfl, rfl, rfl, rfl⟩
  have hreach : Reaches s := StepsOf.of_runList hrun
  obtain ⟨a, ha, hcons₁⟩ := hreach.consistent_iff (c := 1) (by decide) (by omega)
  obtain ⟨b, hb, hcons₂⟩ := hreach.consistent_iff (c := 2) (by decide) (by omega)
  cases ha.symm.trans h₁
  cases hb.symm.trans h₂
  exact ⟨s, hreach, hcount, hcons₁.mpr ⟨rfl, rfl⟩, hcons₂.mpr ⟨rfl, rfl⟩⟩

end SpawnSystem

end KernelAarch64.Core
