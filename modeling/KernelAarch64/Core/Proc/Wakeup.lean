import KernelAarch64.Core.Container
import Mathlib.Data.Finset.Lattice.Fold
import Mathlib.Data.Fintype.Basic

/-!
# Waking the whole tree (`core/proc.c`)

`wakeup(chan)` goes through the process table of the root container. An entry that stands for the
scheduler of another container leads to the process table of that one, and so on. The tables are a
tree below the root, of any depth.

A `proc` is what `rec_wakeup` looks at, and the rest of it, `ρ`.
-/

namespace KernelAarch64.Core

/-- `struct proc`, as far as `wakeup` reads it. `rest` are the other fields, which it must not
change. -/
structure TreeProc (κ χ ρ : Type) where
  state : ProcState
  /-- `NULL` is `none`. -/
  chan : Option χ
  isScheduler : Bool
  cont : Option κ
  rest : ρ

/-- What of a `proc` sleeping and waking is about. -/
def TreeProc.sleeper {κ χ ρ : Type} (p : TreeProc κ χ ρ) : Sleeper χ := ⟨p.state, p.chan⟩

/-- The process tables of all containers. -/
abbrev Tables (κ χ ρ : Type) := ProcPtr κ → TreeProc κ χ ρ

namespace Tables

variable {κ χ ρ : Type}

section

variable [DecidableEq κ] [DecidableEq χ]

/-- The first half of the body of the loop of `rec_wakeup`: a process that sleeps on the channel is
made `RUNNABLE`. The second half goes down if the entry stands for a scheduler. -/
def wakeEntry (chan : Option χ) (t : Tables κ χ ρ) (p : ProcPtr κ) : Tables κ χ ρ :=
  if (t p).state = .sleeping ∧ (t p).chan = chan then
    Function.update t p { t p with state := .runnable }
  else t

/-- The body of the loop, where `call` is the call of `rec_wakeup` for another table. -/
def wakeTurn (chan : Option χ) (call : κ → Tables κ χ ρ → Except Stop (Tables κ χ ρ)) (this : κ)
    (t : Tables κ χ ρ) (i : Fin nproc) : Except Stop (Tables κ χ ρ) :=
  let p : ProcPtr κ := ⟨this, i⟩
  let t := wakeEntry chan t p
  if (t p).isScheduler then
    match (t p).cont with
    | none => .error .fault
    | some k => call k t
  else .ok t

/-- `rec_wakeup(chan, this)`, at most `fuel` calls deep: a turn for each entry of the table of
`this`, in the order of the table. -/
def recWakeup (chan : Option χ) : Nat → κ → Tables κ χ ρ → Except Stop (Tables κ χ ρ)
  | 0, _, _ => .error .wait
  | fuel + 1, this, t => (List.finRange nproc).foldlM (wakeTurn chan (recWakeup chan fuel) this) t

/-- `wakeup(chan)`, which begins at the root container and goes down from there. -/
def wakeup (root : κ) (chan : Option χ) (fuel : Nat) (t : Tables κ χ ρ) :
    Except Stop (Tables κ χ ρ) :=
  recWakeup chan fuel root t

end

/-! ## The tree -/

/-- The scheduler of `l` has an entry in the table of `k`. -/
def Child (t : Tables κ χ ρ) (k l : κ) : Prop :=
  ∃ i, (t ⟨k, i⟩).isScheduler = true ∧ (t ⟨k, i⟩).cont = some l

/-- The tables below `k`, its own included. -/
def Below (t : Tables κ χ ρ) : κ → κ → Prop := Relation.ReflTransGen t.Child

/-- The tables below `k` are a finite tree: entries for schedulers lead to trees. The induction over
it is the recursion of `rec_wakeup`, whatever the depth is. -/
inductive Tree (t : Tables κ χ ρ) : κ → Prop
  | node {k : κ} (child : Fin nproc → κ)
    (hcont : ∀ i, (t ⟨k, i⟩).isScheduler = true → (t ⟨k, i⟩).cont = some (child i))
    (htree : ∀ i, (t ⟨k, i⟩).isScheduler = true → Tree t (child i)) : Tree t k

/-! ## What waking some entries does -/

/-- The entries of `S` are woken, and nothing else changes: those that sleep on the channel become
runnable, and every other entry is what it was. -/
structure Woken (chan : Option χ) (S : Set (ProcPtr κ)) (t u : Tables κ χ ρ) : Prop where
  hit : ∀ p ∈ S, (t p).state = .sleeping → (t p).chan = chan → u p = { t p with state := .runnable }
  miss : ∀ p, ¬ (p ∈ S ∧ (t p).state = .sleeping ∧ (t p).chan = chan) → u p = t p

variable {chan : Option χ} {S S' : Set (ProcPtr κ)} {t u v : Tables κ χ ρ} {k l : κ}
  {p : ProcPtr κ}

namespace Woken

theorem refl (t : Tables κ χ ρ) : Woken chan ∅ t t :=
  ⟨fun _ hp => absurd hp (Set.notMem_empty _), fun _ _ => rfl⟩

/-- An entry stays as it is but for its state. -/
theorem same (h : Woken chan S t u) (p : ProcPtr κ) :
    (u p).isScheduler = (t p).isScheduler ∧ (u p).cont = (t p).cont ∧ (u p).chan = (t p).chan := by
  by_cases hp : p ∈ S ∧ (t p).state = .sleeping ∧ (t p).chan = chan
  · rw [h.hit p hp.1 hp.2.1 hp.2.2]
    exact ⟨rfl, rfl, rfl⟩
  · rw [h.miss p hp]
    exact ⟨rfl, rfl, rfl⟩

theorem trans (h : Woken chan S t u) (h' : Woken chan S' u v) : Woken chan (S ∪ S') t v := by
  constructor
  · intro p hp hstate hchan
    by_cases hS : p ∈ S
    · -- an entry that was woken does not sleep any more
      have hu := h.hit p hS hstate hchan
      rw [h'.miss p, hu]
      rw [hu]
      rintro ⟨-, hsleeping, -⟩
      cases hsleeping
    · have hu : u p = t p := h.miss p fun hhit => hS hhit.1
      rw [h'.hit p (hp.resolve_left hS) (by rw [hu]; exact hstate) (by rw [hu]; exact hchan), hu]
  · intro p hmiss
    have hu : u p = t p := h.miss p fun hhit => hmiss ⟨.inl hhit.1, hhit.2⟩
    rw [h'.miss p, hu]
    rw [hu]
    exact fun hhit => hmiss ⟨.inr hhit.1, hhit.2⟩

theorem congr (h : Woken chan S t u) (heq : ∀ p, p ∈ S' ↔ p ∈ S) : Woken chan S' t u :=
  (Set.ext heq : S' = S) ▸ h

end Woken

section

variable [DecidableEq κ] [DecidableEq χ]

theorem wakeEntry_woken (chan : Option χ) (t : Tables κ χ ρ) (p : ProcPtr κ) :
    Woken chan {p} t (wakeEntry chan t p) := by
  unfold wakeEntry
  split
  · next hsleeping =>
    constructor
    · rintro q rfl - -
      exact Function.update_self ..
    · intro q hmiss
      apply Function.update_of_ne
      rintro rfl
      exact hmiss ⟨rfl, hsleeping⟩
  · next hawake =>
    constructor
    · rintro q rfl hstate hchan
      exact absurd ⟨hstate, hchan⟩ hawake
    · exact fun _ _ => rfl

end

/-! ## The loop and the recursion -/

/-- A loop whose body wakes `S i` in the turn for `i` wakes the union of these sets. The induction
is on the list of turns, over any set that was woken before it. -/
theorem foldlM_woken {f : Tables κ χ ρ → Fin nproc → Except Stop (Tables κ χ ρ)}
    {S : Fin nproc → Set (ProcPtr κ)} (is : List (Fin nproc)) {T : Set (ProcPtr κ)}
    (h : Woken chan T t u)
    (hf : ∀ i ∈ is, ∀ T u, Woken chan T t u → ∃ v, f u i = .ok v ∧ Woken chan (S i) u v) :
    ∃ v, is.foldlM f u = .ok v ∧ Woken chan {p | ∃ i ∈ is, p ∈ S i} u v := by
  induction is generalizing T u with
  | nil =>
    refine ⟨u, rfl, (Woken.refl u).congr ?_⟩
    simp
  | cons i is ih =>
    obtain ⟨v, hv, hwoken⟩ := hf i List.mem_cons_self T u h
    obtain ⟨w, hw, hrest⟩ := ih (h.trans hwoken) fun j hj => hf j (List.mem_cons_of_mem _ hj)
    refine ⟨w, ?_, (hwoken.trans hrest).congr ?_⟩
    · rw [List.foldlM_cons, hv, ok_bind, hw]
    · simp

/-- The entries that the turn for `i` in the table of `k` wakes: the entry itself, and if it is a
scheduler all entries of its container and of the containers below that one. -/
def turnEntries (t : Tables κ χ ρ) (k : κ) (i : Fin nproc) : Set (ProcPtr κ) :=
  {p | p = ⟨k, i⟩ ∨ (t ⟨k, i⟩).isScheduler = true ∧
    ∃ l, (t ⟨k, i⟩).cont = some l ∧ t.Below l p.cont}

/-- All turns together wake the tables below `k`: each entry is one of its own table, or is in a
table below one of its schedulers. -/
theorem mem_turnEntries : (∃ i ∈ List.finRange nproc, p ∈ t.turnEntries k i) ↔ t.Below k p.cont := by
  constructor
  · rintro ⟨i, -, rfl | ⟨hsched, l, hcont, hbelow⟩⟩
    · exact Relation.ReflTransGen.refl
    · exact Relation.ReflTransGen.head ⟨i, hsched, hcont⟩ hbelow
  · intro hbelow
    rcases Relation.ReflTransGen.cases_head hbelow with heq | ⟨l, ⟨i, hsched, hcont⟩, hbelow⟩
    · refine ⟨p.index, List.mem_finRange _, .inl ?_⟩
      rw [heq]
    · exact ⟨i, List.mem_finRange _, .inr ⟨hsched, l, hcont, hbelow⟩⟩

variable [DecidableEq κ] [DecidableEq χ]

/-- `rec_wakeup` on a tree, some entries of which may have been woken before, ends and wakes the
tree. Over the tree: the calls for the children need no more than the largest of their depths. -/
theorem Tree.recWakeup (chan : Option χ) (htree : t.Tree k) :
    ∃ n, ∀ fuel ≥ n, ∀ T u, Woken chan T t u →
      ∃ v, recWakeup chan fuel k u = .ok v ∧ Woken chan {p | t.Below k p.cont} u v := by
  induction htree with
  | @node k child hcont htree ih =>
    choose depth hdepth using ih
    refine ⟨Finset.univ.sup (fun i => if h : (t ⟨k, i⟩).isScheduler = true then depth i h else 0) + 1,
      ?_⟩
    intro fuel hfuel T u hu
    obtain ⟨f, rfl⟩ : ∃ f, fuel = f + 1 := ⟨fuel - 1, by omega⟩
    have hdeep : ∀ i hsched, depth i hsched ≤ f := by
      intro i hsched
      have hle := Finset.le_sup (f := fun i =>
        if h : (t ⟨k, i⟩).isScheduler = true then depth i h else 0) (Finset.mem_univ i)
      simp only [hsched, dif_pos] at hle
      omega
    have hturn : ∀ i ∈ List.finRange nproc, ∀ T u, Woken chan T t u →
        ∃ v, wakeTurn chan (Tables.recWakeup chan f) k u i = .ok v ∧
          Woken chan (t.turnEntries k i) u v := by
      intro i _ T u hu
      have hentry := wakeEntry_woken chan u ⟨k, i⟩
      have hboth := hu.trans hentry
      obtain ⟨hsame, hsame', -⟩ := hboth.same ⟨k, i⟩
      unfold wakeTurn
      dsimp only
      rw [hsame, hsame']
      by_cases hsched : (t ⟨k, i⟩).isScheduler = true
      · obtain ⟨v, hv, hwoken⟩ := hdepth i hsched f (hdeep i hsched) _ _ hboth
        rw [if_pos hsched, hcont i hsched]
        refine ⟨v, hv, (hentry.trans hwoken).congr ?_⟩
        intro p
        simp [turnEntries, hsched, hcont i hsched]
      · rw [if_neg hsched]
        refine ⟨_, rfl, hentry.congr ?_⟩
        intro p
        simp [turnEntries, hsched]
    obtain ⟨v, hv, hwoken⟩ := foldlM_woken (List.finRange nproc) hu hturn
    exact ⟨v, hv, hwoken.congr fun p => mem_turnEntries.symm⟩

/-- **`wakeup` reaches the whole tree.** On a finite tree of containers it ends; a process in a
table of the tree that slept on the channel is runnable then, with its other fields as they were,
and every other process is as it was. -/
theorem wakeup_reaches_tree {root : κ} (htree : t.Tree root) (chan : Option χ) :
    ∃ n, ∀ fuel ≥ n, ∃ u, wakeup root chan fuel t = .ok u ∧
      (∀ p, t.Below root p.cont → (t p).state = .sleeping → (t p).chan = chan →
        u p = { t p with state := .runnable }) ∧
      ∀ p, ¬ (t.Below root p.cont ∧ (t p).state = .sleeping ∧ (t p).chan = chan) → u p = t p := by
  obtain ⟨n, hn⟩ := htree.recWakeup chan
  refine ⟨n, fun fuel hfuel => ?_⟩
  obtain ⟨u, hu, hwoken⟩ := hn fuel hfuel ∅ t (Woken.refl t)
  exact ⟨u, hu, hwoken.hit, hwoken.miss⟩

/-- What `wakeup` means for one process of the tree is `Sleeper.wakeup`. -/
theorem wakeup_sleeper {root : κ} (htree : t.Tree root) (c : χ) :
    ∃ n, ∀ fuel ≥ n, ∃ u, wakeup root (some c) fuel t = .ok u ∧
      ∀ p, t.Below root p.cont → (u p).sleeper = (t p).sleeper.wakeup c := by
  obtain ⟨n, hn⟩ := htree.recWakeup (some c)
  refine ⟨n, fun fuel hfuel => ?_⟩
  obtain ⟨u, hu, hwoken⟩ := hn fuel hfuel ∅ t (Woken.refl t)
  refine ⟨u, hu, ?_⟩
  intro p hp
  by_cases hhit : (t p).state = .sleeping ∧ (t p).chan = some c
  · rw [hwoken.hit p hp hhit.1 hhit.2]
    exact (if_pos hhit).symm
  · rw [hwoken.miss p fun hmem => hhit hmem.2]
    exact (Sleeper.wakeup_of_ne hhit).symm

/-- A container below the root, with a process that sleeps on channel `7`. -/
def twoTables : Tables Nat Nat Unit := fun p =>
  if p.cont = 0 ∧ p.index.val = 0 then ⟨.runnable, none, true, some 1, ()⟩
  else if p.cont = 1 ∧ p.index.val = 2 then ⟨.sleeping, some 7, false, none, ()⟩
  else ⟨.unused, none, false, none, ()⟩

theorem wakeup_reaches_tree_two : ∃ n, ∀ fuel ≥ n, ∃ u,
    wakeup 0 (some 7) fuel twoTables = .ok u ∧ (u ⟨1, 2⟩).state = .runnable := by
  have hnone : ∀ i, (twoTables ⟨1, i⟩).isScheduler = false := by decide
  have hleaf : twoTables.Tree 1 := .node (fun _ => 1) (by decide) fun i hsched =>
    absurd hsched (by simp [hnone i])
  have htree : twoTables.Tree 0 := .node (fun _ => 1) (by decide) fun _ _ => hleaf
  obtain ⟨n, hn⟩ := wakeup_reaches_tree htree (some 7)
  refine ⟨n, fun fuel hfuel => ?_⟩
  obtain ⟨u, hu, hhit, -⟩ := hn fuel hfuel
  have hbelow : twoTables.Below 0 1 := Relation.ReflTransGen.single ⟨0, by decide, by decide⟩
  exact ⟨u, hu, by rw [hhit ⟨1, 2⟩ hbelow (by decide) (by decide)]⟩

end Tables

end KernelAarch64.Core
