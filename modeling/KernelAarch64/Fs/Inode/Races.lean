import Mathlib.Data.Fintype.Defs
import Mathlib.Data.List.Nodup
import Mathlib.Data.List.Perm.Basic
import Mathlib.Logic.Function.Basic
import Mathlib.Logic.Relation

/-!
# Threads and the list of in-memory inodes

`inode_get` and `inode_put` of any number of threads, cut where the locks of `inode.c` cut them.
`inode_get` searches the list under `lock`, counts its reference, and inserts an inode of its own
under `lock` if the search found none. `inode_put` counts down under the lock of the inode, detaches
the inode under `lock`, and frees the object. Between these steps the other threads run.

An object of the arena gets a number of its own each time it is allocated, so that an inode that
was freed stays freed.

A window is what a thread must be alone in between two of its steps: it is about to add an inode
with some number, or to remove one. The invariant `Safe` says that the windows are apart and that
the counts cover the references. It has a lemma for each change of the table, `Safe.step` puts these
together, and `oneCopy_of_undisturbed` is the result for runs. `races_break_oneCopy` has the two
runs in which a step falls into a window of another thread.
-/

namespace KernelAarch64.Fs

/-- What `inode_get` and `inode_put` look at in an `Inode`. The entry and the blocks play no part in
the races between them. -/
structure InodeObject where
  inodeNo : Nat
  /-- `rc.count` -/
  count : Int
  /-- `lock` is held. -/
  locked : Bool
  /-- `free_object` was called. -/
  freed : Bool
  deriving Repr, DecidableEq

/-- Where a thread is in `inode_get` or `inode_put`. Each of the steps between these points is
atomic, and other threads may come at any of the points. -/
inductive InodeCall where
  /-- In neither of them. -/
  | outside
  /-- In `inode_get`: the search found `o`. -/
  | found (o : Nat)
  /-- In `inode_get`: the search found no inode with number `n`. -/
  | missed (n : Nat)
  /-- In `inode_get`: `o` is initialized and not in the list yet. -/
  | built (o : Nat)
  /-- In `inode_put`: the count of `o` went to zero. -/
  | dropped (o : Nat)
  /-- In `inode_put`: `o` is out of the list. -/
  | detached (o : Nat)
  deriving Repr, DecidableEq

/-- What a thread must be the only one to do, from the point where it decides to do it until it is
done. -/
inductive InodeWindow where
  /-- It adds an inode with number `n` to the list. -/
  | adding (n : Nat)
  /-- It removes `o` from the list. -/
  | removing (o : Nat)
  deriving Repr, DecidableEq

/-- The window that the call has open: between a search that found nothing and the insertion, and
between the last decrement and the removal. -/
def InodeCall.window (objects : Nat → InodeObject) : InodeCall → Option InodeWindow
  | .missed n => some (.adding n)
  | .built o => some (.adding (objects o).inodeNo)
  | .dropped o => some (.removing o)
  | _ => none

/-- The list `head`, the objects of the arena and the threads. The references are kept to say what a
count should be; no step looks at them. -/
structure InodeTable (ι : Type) where
  /-- From `head.next` on. -/
  list : List Nat
  objects : Nat → InodeObject
  /-- The number of the next object of the arena. -/
  next : Nat
  call : ι → InodeCall
  /-- The references that `inode_get` returned to a thread and that the thread has not put. -/
  held : List (ι × Nat)

/-- The steps of a thread: `search`, `increment` and `insert` are those of `inode_get`, the other
three those of `inode_put`. -/
inductive InodeStep (ι : Type) where
  | search (t : ι) (n : Nat)
  | increment (t : ι)
  | insert (t : ι)
  | decrement (t : ι) (o : Nat)
  | detach (t : ι)
  | free (t : ι)
  deriving Repr, DecidableEq

namespace InodeTable

variable {ι : Type} [DecidableEq ι]

/-- No inode is in memory, no thread is in a call, and nobody has a reference. The arena has not
handed out any object yet. -/
def empty : InodeTable ι where
  list := []
  objects := fun _ => ⟨0, 0, false, false⟩
  next := 0
  call := fun _ => .outside
  held := []

/-- `get_inode_inlist` -/
def getInodeInlist (m : InodeTable ι) (n : Nat) : Option Nat :=
  m.list.find? fun o => (m.objects o).inodeNo = n

/-- Thread `t` is at `c` now. -/
def goto (m : InodeTable ι) (t : ι) (c : InodeCall) : InodeTable ι :=
  { m with call := fun u => if u = t then c else m.call u }

/-- An assignment to the fields of `o`. -/
def setObject (m : InodeTable ι) (o : Nat) (x : InodeObject) : InodeTable ι :=
  { m with objects := fun y => if y = o then x else m.objects y }

/-- `increment_rc(&inode->rc)`, after which `inode_get` returns `o`. -/
def share (m : InodeTable ι) (t : ι) (o : Nat) : InodeTable ι :=
  { m.setObject o { m.objects o with count := (m.objects o).count + 1 } with
    held := (t, o) :: m.held }

/-- `alloc_object`, `init_inode` and `increment_rc`: a locked inode with number `n`. -/
def build (m : InodeTable ι) (n : Nat) : InodeTable ι :=
  { m.setObject m.next ⟨n, 1, true, false⟩ with next := m.next + 1 }

/-- `merge_list(&head, &inode->node)`, after which `inode_get` unlocks `o` and returns it. -/
def link (m : InodeTable ι) (t : ι) (o : Nat) : InodeTable ι :=
  { m.setObject o { m.objects o with locked := false } with
    list := o :: m.list
    held := (t, o) :: m.held }

/-- `decrement_rc(&inode->rc)` in `inode_put`. The inode stays locked when its count is zero. -/
def drop (m : InodeTable ι) (t : ι) (o : Nat) : InodeTable ι :=
  { m.setObject o { m.objects o with
      count := (m.objects o).count - 1
      locked := decide ((m.objects o).count - 1 = 0) } with
    held := m.held.erase (t, o) }

/-- `detach_from_list(&inode->node)`, after which `inode_put` unlocks `o`. -/
def unlink (m : InodeTable ι) (o : Nat) : InodeTable ι :=
  { m.setObject o { m.objects o with locked := false } with list := m.list.erase o }

/-- One step of a thread, or `none` if the thread cannot make it now. Every step is possible as soon
as the one before it in its call is made; only the lock of an inode is waited for. -/
def step (m : InodeTable ι) : InodeStep ι → Option (InodeTable ι)
  | .search t n =>
    if m.call t = .outside then
      match m.getInodeInlist n with
      | some o => some (m.goto t (.found o))
      | none => some (m.goto t (.missed n))
    else none
  | .increment t =>
    match m.call t with
    | .found o => some ((m.share t o).goto t .outside)
    | .missed n => some ((m.build n).goto t (.built m.next))
    | _ => none
  | .insert t =>
    match m.call t with
    | .built o => some ((m.link t o).goto t .outside)
    | _ => none
  | .decrement t o =>
    -- `acquire_spinlock(&inode->lock)` waits
    if m.call t = .outside ∧ (t, o) ∈ m.held ∧ (m.objects o).locked = false then
      some ((m.drop t o).goto t
        (if (m.objects o).count - 1 = 0 then .dropped o else .outside))
    else none
  | .detach t =>
    match m.call t with
    | .dropped o => some ((m.unlink o).goto t (.detached o))
    | _ => none
  | .free t =>
    match m.call t with
    | .detached o =>
      some ((m.setObject o { m.objects o with freed := true }).goto t .outside)
    | _ => none

/-- The window that thread `t` has open. -/
def window (m : InodeTable ι) (t : ι) : Option InodeWindow := (m.call t).window m.objects

/-- The step does not fall into a window that another thread has open: a search for `n` does not
come between the search and the insertion of another `inode_get(n)`, nor between the last
`decrement_rc` of inode `n` and its removal from the list, and the last `decrement_rc` of an inode
does not come between the search of an `inode_get` that found it and its `increment_rc`. -/
def Undisturbed (m : InodeTable ι) : InodeStep ι → Prop
  | .search _ n =>
    (∀ u, m.window u ≠ some (.adding n)) ∧ ∀ o ∈ m.getInodeInlist n, (m.objects o).count ≠ 0
  | .decrement _ o => (m.objects o).count = 1 → ∀ u, m.call u ≠ .found o
  | _ => True

instance [Fintype ι] (m : InodeTable ι) (a : InodeStep ι) : Decidable (m.Undisturbed a) := by
  induction a using InodeStep.casesOn <;> dsimp only [Undisturbed] <;> infer_instance

/-- The states that the threads can bring about with steps allowed by `ok`. -/
def Reaches (ok : InodeTable ι → InodeStep ι → Prop) (m : InodeTable ι) : Prop :=
  Relation.ReflTransGen (fun m m' => ∃ a, ok m a ∧ m.step a = some m') empty m

/-- The steps in turn, each of them allowed by `ok`. It evaluates the concrete runs with two threads
below. -/
def exec (ok : InodeTable ι → InodeStep ι → Prop) [∀ m a, Decidable (ok m a)] :
    InodeTable ι → List (InodeStep ι) → Option (InodeTable ι)
  | m, [] => some m
  | m, a :: as => if ok m a then (m.step a).bind fun m' => exec ok m' as else none

/-- At most one `Inode` for each number is in the list, and no thread has a freed one. -/
def OneCopy (m : InodeTable ι) : Prop :=
  (m.list.map fun o => (m.objects o).inodeNo).Nodup ∧
    ∀ p ∈ m.held, (m.objects p.2).freed = false

/-! ## The invariant

What a thread relies on between two steps is in `CallOk`. No step of another thread may break it,
which is what `Undisturbed` rules out for the two steps that could. -/

/-- What a thread at `c` relies on, which other threads could take from it: the object it has found
is still in the list, or the number it has missed is still not. -/
def CallOk (m : InodeTable ι) : InodeCall → Prop
  | .outside => True
  | .found o => o ∈ m.list ∧ (m.objects o).count ≠ 0
  | .missed n => ∀ x ∈ m.list, (m.objects x).inodeNo ≠ n
  | .built o => o < m.next ∧ (m.objects o).freed = false ∧ (m.objects o).count = 1 ∧
    ∀ x ∈ m.list, (m.objects x).inodeNo ≠ (m.objects o).inodeNo
  | .dropped o => o ∈ m.list ∧ (m.objects o).count = 0
  | .detached o => o < m.next ∧ o ∉ m.list ∧ (m.objects o).count = 0

/-- What holds as long as no thread disturbs another one: no two objects with one number, each count
is the number of references, and no window is open twice. -/
structure Safe (m : InodeTable ι) : Prop where
  nodup : (m.list.map fun o => (m.objects o).inodeNo).Nodup
  listed : ∀ o ∈ m.list, o < m.next ∧ (m.objects o).freed = false
  count : ∀ o ∈ m.list, (m.objects o).count = m.held.countP (·.2 = o)
  held : ∀ p ∈ m.held, p.2 ∈ m.list
  call : ∀ t, m.CallOk (m.call t)
  window : ∀ t u w, m.window t = some w → m.window u = some w → t = u

section Operations

omit [DecidableEq ι]

variable {m m' : InodeTable ι} {t u : ι} {n o : Nat}

/-- What the search finds is in the list. -/
theorem getInodeInlist_eq_some (h : m.getInodeInlist n = some o) : o ∈ m.list :=
  List.mem_of_find?_eq_some h

/-- If the search finds nothing, no inode of the list has the number. -/
theorem getInodeInlist_eq_none (h : m.getInodeInlist n = none) :
    ∀ o ∈ m.list, (m.objects o).inodeNo ≠ n := by
  simpa [getInodeInlist, List.find?_eq_none] using h

/-- At first nothing is in memory. -/
theorem Safe.empty : (empty : InodeTable ι).Safe := by
  constructor <;> simp [InodeTable.empty, CallOk, InodeTable.window, InodeCall.window]

/-- Nobody has a reference to an inode whose count is zero. -/
theorem Safe.not_held (h : m.Safe) (ho : (m.objects o).count = 0) (u : ι) : (u, o) ∉ m.held := by
  intro hu
  have hcount := h.count o (h.held _ hu)
  rw [ho] at hcount
  have hpos : 0 < m.held.countP (·.2 = o) := List.countP_pos_iff.mpr ⟨_, hu, by simp⟩
  omega

theorem Safe.count_pos (h : m.Safe) (hu : (u, o) ∈ m.held) : 1 ≤ (m.objects o).count := by
  rw [h.count o (h.held _ hu)]
  have hpos : 0 < m.held.countP (·.2 = o) := List.countP_pos_iff.mpr ⟨_, hu, by simp⟩
  omega

/-- The table changes in the fields of `o`, which keeps its number, and the threads rely on none of
the fields that change. -/
theorem Safe.window_congr (h : m.Safe) (hcall : m'.call = m.call)
    (hno : ∀ t x, m.call t = .built x → (m'.objects x).inodeNo = (m.objects x).inodeNo) :
    ∀ t u w, m'.window t = some w → m'.window u = some w → t = u := by
  have hsame : ∀ t, m'.window t = m.window t := by
    intro t
    unfold InodeTable.window
    rw [hcall]
    cases hc : m.call t with
    | built x => simp [InodeCall.window, hno t x hc]
    | _ => rfl
  intro t u w
  rw [hsame, hsame]
  exact h.window t u w

/-- One more reference to a listed inode. Only its count changes, which stays the number of the
references to it. -/
theorem Safe.share (h : m.Safe) (ho : o ∈ m.list) (hcount : (m.objects o).count ≠ 0) (t : ι) :
    (m.share t o).Safe := by
  have hno : ∀ y, ((m.share t o).objects y).inodeNo = (m.objects y).inodeNo := by
    intro y
    simp only [InodeTable.share, setObject]
    grind
  have hpos : 0 ≤ (m.objects o).count := by
    rw [h.count o ho]
    omega
  refine ⟨?_, ?_, ?_, ?_, ?_, h.window_congr rfl fun _ y _ => hno y⟩
  · simp only [hno]
    exact h.nodup
  · intro y hy
    have := h.listed y hy
    simp only [InodeTable.share, setObject]
    grind
  · intro y hy
    have := h.count y hy
    simp only [InodeTable.share, setObject, List.countP_cons, decide_eq_true_eq]
    grind
  · intro p hp
    rcases List.mem_cons.mp hp with rfl | hp
    · exact ho
    · exact h.held p hp
  · intro u
    have hcall := h.call u
    show (m.share t o).CallOk (m.call u)
    cases hc : m.call u with
    | outside => trivial
    | _ =>
      simp only [hc, CallOk, hno] at hcall ⊢
      simp only [InodeTable.share, setObject]
      grind

/-- An inode that is not in the list yet: a new object of the arena, which nobody else knows. -/
theorem Safe.build (h : m.Safe) (n : Nat) : (m.build n).Safe := by
  have hobj : ∀ y < m.next, (m.build n).objects y = m.objects y := by
    intro y hy
    simp only [InodeTable.build, setObject]
    exact if_neg (Nat.ne_of_lt hy)
  have hlisted : ∀ y ∈ m.list, (m.build n).objects y = m.objects y := fun y hy =>
    hobj y (h.listed y hy).1
  have hcall : ∀ u, (m.build n).CallOk (m.call u) := by
    intro u
    have hcall := h.call u
    cases hc : m.call u with
    | outside => trivial
    | _ =>
      simp only [hc, CallOk] at hcall ⊢
      simp only [InodeTable.build, setObject] at hlisted ⊢
      grind
  refine ⟨?_, ?_, ?_, h.held, hcall, h.window_congr rfl ?_⟩
  · have hmap : (m.list.map fun y => ((m.build n).objects y).inodeNo) =
        m.list.map fun y => (m.objects y).inodeNo :=
      List.map_congr_left fun y hy => by rw [hlisted y hy]
    exact hmap ▸ h.nodup
  · intro y hy
    rw [hlisted y hy]
    exact ⟨Nat.lt_succ_of_lt (h.listed y hy).1, (h.listed y hy).2⟩
  · intro y hy
    rw [hlisted y hy]
    exact h.count y hy
  · intro u y hy
    have hlt := h.call u
    rw [hy] at hlt
    rw [hobj y hlt.1]

/-- The inode goes into the list, with its first reference. No other thread is about to add its
number, so it is the only one with it. -/
theorem Safe.link (h : m.Safe) (ho : m.CallOk (.built o))
    (hw : ∀ u, m.window u ≠ some (.adding (m.objects o).inodeNo))
    (t : ι) : (m.link t o).Safe := by
  obtain ⟨hlt, hfreed, hcount, hnew⟩ := ho
  have hno : ∀ y, ((m.link t o).objects y).inodeNo = (m.objects y).inodeNo := by
    intro y
    simp only [InodeTable.link, setObject]
    grind
  have hout : o ∉ m.list := fun hmem => hnew o hmem rfl
  -- Nobody has a reference to an inode that is not in the list.
  have hzero : m.held.countP (·.2 = o) = 0 := by
    apply List.countP_eq_zero.mpr
    intro p hp hpo
    have := h.held p hp
    grind
  refine ⟨?_, ?_, ?_, ?_, ?_, h.window_congr rfl fun _ y _ => hno y⟩
  · simp only [hno]
    refine List.nodup_cons.mpr ⟨?_, h.nodup⟩
    intro hmem
    obtain ⟨y, hy, heq⟩ := List.mem_map.mp hmem
    exact hnew y hy heq
  · intro y hy
    simp only [InodeTable.link, setObject] at hy ⊢
    have := h.listed y
    grind
  · intro y hy
    simp only [InodeTable.link, setObject, List.countP_cons, decide_eq_true_eq] at hy ⊢
    have := h.count y
    grind
  · intro p hp
    rcases List.mem_cons.mp hp with rfl | hp
    · exact List.mem_cons_self
    · exact List.mem_cons_of_mem _ (h.held p hp)
  · intro u
    have hcall := h.call u
    have hwin := hw u
    show (m.link t o).CallOk (m.call u)
    cases hc : m.call u with
    | outside => trivial
    | _ =>
      simp only [hc, CallOk, hno, InodeTable.window, InodeCall.window] at hcall hwin ⊢
      simp only [InodeTable.link, setObject]
      grind

/-- An inode without references leaves the list. No other thread is about to remove it, so nobody
relies on its being there. -/
theorem Safe.unlink (h : m.Safe) (hcount : (m.objects o).count = 0)
    (hw : ∀ u, m.window u ≠ some (.removing o)) : (m.unlink o).Safe := by
  have hno : ∀ y, ((m.unlink o).objects y).inodeNo = (m.objects y).inodeNo := by
    intro y
    simp only [InodeTable.unlink, setObject]
    grind
  have hnodup : m.list.Nodup := List.Nodup.of_map _ h.nodup
  refine ⟨?_, ?_, ?_, ?_, ?_, h.window_congr rfl fun _ y _ => hno y⟩
  · simp only [hno]
    exact h.nodup.sublist (List.erase_sublist.map _)
  · intro y hy
    have := h.listed y (List.mem_of_mem_erase hy)
    simp only [InodeTable.unlink, setObject]
    grind
  · intro y hy
    have := h.count y (List.mem_of_mem_erase hy)
    simp only [InodeTable.unlink, setObject]
    grind
  · intro p hp
    have hpo : p.2 ≠ o := by
      intro hpo
      apply h.not_held hcount p.1
      rw [← hpo]
      exact hp
    exact (List.mem_erase_of_ne hpo).mpr (h.held p hp)
  · intro u
    have hcall := h.call u
    have hwin := hw u
    have hmem : ∀ y, y ∈ m.list.erase o ↔ y ≠ o ∧ y ∈ m.list := fun y => hnodup.mem_erase_iff
    show (m.unlink o).CallOk (m.call u)
    cases hc : m.call u with
    | outside => trivial
    | _ =>
      simp only [hc, CallOk, hno, InodeTable.window, InodeCall.window] at hcall hwin ⊢
      simp only [InodeTable.unlink, setObject, hmem]
      grind

/-- The object of an inode that nobody can reach is freed: it is not in the list, and no reference
to it is left. -/
theorem Safe.free (h : m.Safe) (ho : m.CallOk (.detached o)) :
    (m.setObject o { m.objects o with freed := true }).Safe := by
  obtain ⟨-, hout, hcount⟩ := ho
  have hlisted : ∀ y ∈ m.list,
      (m.setObject o { m.objects o with freed := true }).objects y = m.objects y := by
    intro y hy
    simp only [setObject]
    grind
  refine ⟨?_, ?_, ?_, h.held, ?_, h.window_congr rfl ?_⟩
  · have hmap := List.map_congr_left fun y hy => congrArg InodeObject.inodeNo (hlisted y hy)
    exact hmap ▸ h.nodup
  · intro y hy
    rw [hlisted y hy]
    exact h.listed y hy
  · intro y hy
    rw [hlisted y hy]
    exact h.count y hy
  · intro u
    have hcall := h.call u
    show (m.setObject o _).CallOk (m.call u)
    cases hc : m.call u with
    | outside => trivial
    | _ =>
      simp only [hc, CallOk] at hcall ⊢
      simp only [setObject]
      grind
  · intro u y _
    simp only [setObject]
    grind

end Operations

variable {m m' : InodeTable ι} {t : ι} {n o : Nat}

/-- Where the threads are after one has gone on. -/
@[simp] theorem goto_call (c : InodeCall) (u : ι) :
    (m.goto t c).call u = if u = t then c else m.call u := rfl

/-- A thread goes on to `c`, where it has a window of its own. Nothing but the place of this thread
changes. -/
theorem Safe.goto {c : InodeCall} (h : m.Safe) (hc : m.CallOk c)
    (hw : ∀ u w, u ≠ t → c.window m.objects = some w → m.window u ≠ some w) :
    (m.goto t c).Safe := by
  refine ⟨h.nodup, h.listed, h.count, h.held, ?_, ?_⟩
  · intro u
    rw [goto_call]
    split
    · exact hc
    · exact h.call u
  · intro u v w hu hv
    have hwin : ∀ x, (m.goto t c).window x =
        if x = t then c.window m.objects else m.window x := by
      intro x
      rw [InodeTable.window, goto_call]
      split <;> rfl
    rw [hwin] at hu hv
    by_cases hut : u = t <;> by_cases hvt : v = t
    · rw [hut, hvt]
    · rw [if_pos hut] at hu
      rw [if_neg hvt] at hv
      exact absurd hv (hw v w hvt hu)
    · rw [if_neg hut] at hu
      rw [if_pos hvt] at hv
      exact absurd hu (hw u w hut hv)
    · rw [if_neg hut] at hu
      rw [if_neg hvt] at hv
      exact h.window u v w hu hv

theorem Safe.leave (h : m.Safe) (t : ι) : (m.goto t .outside).Safe :=
  h.goto trivial fun _ _ _ hw => by cases hw

/-- One reference less. Nobody has just found an inode that loses its last one, which is the
condition on the step. -/
theorem Safe.drop (h : m.Safe) (hheld : (t, o) ∈ m.held)
    (hlast : (m.objects o).count = 1 → ∀ u, m.call u ≠ .found o) : (m.drop t o).Safe := by
  have hno : ∀ y, ((m.drop t o).objects y).inodeNo = (m.objects y).inodeNo := by
    intro y
    simp only [InodeTable.drop, setObject]
    grind
  have ho := h.held _ hheld
  have hpos := h.count_pos hheld
  refine ⟨?_, ?_, ?_, ?_, ?_, h.window_congr rfl fun _ y _ => hno y⟩
  · simp only [hno]
    exact h.nodup
  · intro y hy
    have := h.listed y hy
    simp only [InodeTable.drop, setObject]
    grind
  · intro y hy
    have := h.count y hy
    have herase := (List.perm_cons_erase hheld).countP_eq (fun p => decide (p.2 = y))
    simp only [List.countP_cons, decide_eq_true_eq] at herase
    simp only [InodeTable.drop, setObject]
    grind
  · intro p hp
    exact h.held p (List.mem_of_mem_erase hp)
  · intro u
    have hcall := h.call u
    have hu := fun hone => hlast hone u
    show (m.drop t o).CallOk (m.call u)
    cases hc : m.call u with
    | outside => trivial
    | _ =>
      simp only [hc, CallOk, hno] at hcall hu ⊢
      simp only [InodeTable.drop, setObject]
      grind

/-- A thread that has a window open is the only one. -/
theorem Safe.window_leave {w : InodeWindow} (h : m.Safe) (hw : m.window t = some w) (u : ι) :
    (m.goto t .outside).window u ≠ some w := by
  intro hu
  rw [InodeTable.window, goto_call] at hu
  split at hu
  · cases hu
  · rename_i hut
    exact hut (h.window u t w hu hw)

/-- A search that found nothing goes on with a new inode. It keeps its window, as the new object has
the number that was searched for. -/
theorem Safe.goto_built (h : m.Safe) (hc : m.call t = .missed n) :
    ((m.build n).goto t (.built m.next)).Safe := by
  have hcall := h.call t
  rw [hc] at hcall
  have hnew : (m.build n).CallOk (.built m.next) := by
    refine ⟨Nat.lt_succ_self _, ?_, ?_, ?_⟩
    · simp [InodeTable.build, setObject]
    · simp [InodeTable.build, setObject]
    · intro y hy
      have hy : y ∈ m.list := hy
      have hne : y ≠ m.next := Nat.ne_of_lt (h.listed y hy).1
      simpa [InodeTable.build, setObject, hne] using hcall y hy
  refine (h.build n).goto hnew ?_
  intro u w hut hw hu
  -- the window of `missed n` is the one of `built m.next`
  have hwt : (m.build n).window t = some w := by
    rw [← hw, InodeTable.window]
    show (m.call t).window _ = _
    rw [hc]
    simp [InodeCall.window, InodeTable.build, setObject]
  exact hut ((h.build n).window u t w hu hwt)

/-- The new inode goes into the list. -/
theorem Safe.goto_linked (h : m.Safe) (hc : m.call t = .built o) :
    ((m.link t o).goto t .outside).Safe := by
  have hcall := h.call t
  rw [hc] at hcall
  have hwt : m.window t = some (.adding (m.objects o).inodeNo) := by
    rw [InodeTable.window, hc]
    rfl
  exact (h.leave t).link hcall (h.window_leave hwt) t

/-- Only the thread that puts the last reference comes to remove the inode. -/
theorem Safe.goto_dropped (h : m.Safe) (hheld : (t, o) ∈ m.held)
    (hlast : (m.objects o).count = 1 → ∀ u, m.call u ≠ .found o)
    (hzero : (m.objects o).count - 1 = 0) : ((m.drop t o).goto t (.dropped o)).Safe := by
  refine (h.drop hheld hlast).goto ⟨h.held _ hheld, ?_⟩ ?_
  · simp [InodeTable.drop, setObject, hzero]
  · intro u w _ hw hu
    cases hw
    -- another thread that removes `o` has seen its count at zero
    have hcall := h.call u
    have hu : (m.call u).window (m.drop t o).objects = some (.removing o) := hu
    have hpos := h.count_pos hheld
    cases hc : m.call u with
    | dropped x =>
      rw [hc] at hu hcall
      cases hu
      have := hcall.2
      omega
    | _ =>
      rw [hc] at hu
      cases hu

/-- The inode leaves the list. It was in it once, so that it is not in it any more. -/
theorem Safe.goto_detached (h : m.Safe) (hc : m.call t = .dropped o) :
    ((m.unlink o).goto t (.detached o)).Safe := by
  have hcall := h.call t
  rw [hc] at hcall
  have hwt : m.window t = some (.removing o) := by
    rw [InodeTable.window, hc]
    rfl
  have hunlink := (h.leave t).unlink hcall.2 (h.window_leave hwt)
  have heq : (m.unlink o).goto t (.detached o) =
      ((m.goto t .outside).unlink o).goto t (.detached o) := by
    simp only [InodeTable.unlink, InodeTable.goto, setObject, mk.injEq, true_and, and_true]
    funext u
    split <;> rfl
  rw [heq]
  refine hunlink.goto ⟨(h.listed o hcall.1).1, ?_, ?_⟩ fun _ _ _ hw => by cases hw
  · have hnodup : m.list.Nodup := List.Nodup.of_map _ h.nodup
    exact hnodup.not_mem_erase
  · simpa [InodeTable.unlink, setObject, InodeTable.goto] using hcall.2

/-- A step that falls into no window keeps the invariant. One case for each kind of step, put
together from the lemmas above. -/
theorem Safe.step {a : InodeStep ι} (h : m.Safe) (hok : m.Undisturbed a)
    (hstep : m.step a = some m') : m'.Safe := by
  cases a with
  | search t n =>
    obtain ⟨hwin, hcount⟩ := hok
    simp only [InodeTable.step] at hstep
    split at hstep
    · cases hget : m.getInodeInlist n with
      | some o =>
        simp only [hget, Option.some.injEq] at hstep
        subst hstep
        -- It will increment a count that is not zero, as no `inode_put` is about to remove `o`.
        exact h.goto ⟨getInodeInlist_eq_some hget, hcount o hget⟩ fun _ _ _ hw => by cases hw
      | none =>
        simp only [hget, Option.some.injEq] at hstep
        subst hstep
        -- It is the only one that will add an inode with number `n`.
        refine h.goto (getInodeInlist_eq_none hget) ?_
        intro u w _ hw
        cases hw
        exact hwin u
    · cases hstep
  | increment t =>
    have hcall := h.call t
    simp only [InodeTable.step] at hstep
    split at hstep
    · rename_i o hc
      cases hstep
      rw [hc] at hcall
      exact (h.share hcall.1 hcall.2 t).leave t
    · rename_i n hc
      cases hstep
      exact h.goto_built hc
    · cases hstep
  | insert t =>
    simp only [InodeTable.step] at hstep
    split at hstep
    · rename_i o hc
      cases hstep
      exact h.goto_linked hc
    · cases hstep
  | decrement t o =>
    simp only [InodeTable.step] at hstep
    split at hstep
    · rename_i hpre
      obtain ⟨-, hheld, -⟩ := hpre
      cases hstep
      split
      · rename_i hzero
        -- The last reference: the thread goes on to remove `o` from the list.
        exact h.goto_dropped hheld hok hzero
      · exact (h.drop hheld hok).leave t
    · cases hstep
  | detach t =>
    simp only [InodeTable.step] at hstep
    split at hstep
    · rename_i o hc
      cases hstep
      exact h.goto_detached hc
    · cases hstep
  | free t =>
    have hcall := h.call t
    simp only [InodeTable.step] at hstep
    split at hstep
    · rename_i o hc
      cases hstep
      rw [hc] at hcall
      exact (h.free hcall).leave t
    · cases hstep

/-- As long as no step falls into a window of another thread, the list has one copy of each inode
and every reference that `inode_get` returned can be used until it is put. -/
theorem oneCopy_of_undisturbed (h : Reaches Undisturbed m) : m.OneCopy := by
  have hsafe : m.Safe := by
    induction h with
    | refl => exact Safe.empty
    | tail _ hlast ih =>
      obtain ⟨a, hok, hstep⟩ := hlast
      exact ih.step hok hstep
  exact ⟨hsafe.nodup, fun p hp => (hsafe.listed _ (hsafe.held p hp)).2⟩

/-- The steps of a list make a run, if each of them is allowed where it is taken. Both are
decidable, so that a run can be evaluated. -/
theorem Reaches.exec {ok : InodeTable ι → InodeStep ι → Prop} [∀ m a, Decidable (ok m a)]
    {as : List (InodeStep ι)} (h : Reaches ok m) (hexec : exec ok m as = some m') :
    Reaches ok m' := by
  induction as generalizing m with
  | nil =>
    cases hexec
    exact h
  | cons a as ih =>
    simp only [InodeTable.exec] at hexec
    split at hexec
    · rename_i hok
      obtain ⟨u, hstep, hrest⟩ := Option.bind_eq_some_iff.mp hexec
      exact ih (h.tail ⟨a, hok, hstep⟩) hrest
    · cases hexec

/-- Two threads share inode `5`; both put it, and it is read in again. -/
def shareAndPut : List (InodeStep Bool) :=
  [.search false 5, .increment false, .insert false, .search true 5, .increment true,
    .decrement false 0, .decrement true 0, .detach true, .search false 5, .free true,
    .increment false, .insert false]

/-- Nobody disturbs the other here. -/
theorem oneCopy_of_undisturbed_shared : ∃ m : InodeTable Bool,
    exec Undisturbed empty shareAndPut = some m ∧ m.OneCopy := by
  obtain ⟨m, hm⟩ := Option.isSome_iff_exists.mp
    (by decide : (exec Undisturbed empty shareAndPut).isSome = true)
  exact ⟨m, hm, oneCopy_of_undisturbed (Reaches.exec .refl hm)⟩

/-- Two threads look for inode `5` before one of them has inserted it. -/
def getTwice : List (InodeStep Bool) :=
  [.search false 5, .search true 5, .increment false, .increment true, .insert false, .insert true]

/-- A thread finds inode `5`, and the last reference to it is put before it counts its own. -/
def getWhilePut : List (InodeStep Bool) :=
  [.search false 5, .increment false, .insert false, .search true 5, .decrement false 0, .detach false,
    .free false, .increment true]

/-- There can be two copies of one inode in the list, and a thread can have a freed one. -/
theorem races_break_oneCopy :
    (∃ m : InodeTable Bool, Reaches (fun _ _ => True) m ∧
      ¬ (m.list.map fun o => (m.objects o).inodeNo).Nodup) ∧
    ∃ m : InodeTable Bool, Reaches (fun _ _ => True) m ∧
      ∃ p ∈ m.held, (m.objects p.2).freed = true := by
  constructor
  · have hlist : (exec (fun _ _ => True) (empty : InodeTable Bool) getTwice).map
        (fun m => m.list.map fun o => (m.objects o).inodeNo) = some [5, 5] := by
      decide
    obtain ⟨m, hm, hlist⟩ := Option.map_eq_some_iff.mp hlist
    refine ⟨m, Reaches.exec .refl hm, ?_⟩
    rw [hlist]
    decide
  · have hheld : (exec (fun _ _ => True) (empty : InodeTable Bool) getWhilePut).map
        (fun m => (m.held, (m.objects 0).freed)) = some ([(true, 0)], true) := by
      decide
    obtain ⟨m, hm, heq⟩ := Option.map_eq_some_iff.mp hheld
    obtain ⟨hheld, hfreed⟩ := Prod.mk.inj heq
    refine ⟨m, Reaches.exec .refl hm, (true, 0), ?_, hfreed⟩
    rw [hheld]
    exact List.mem_singleton_self _

end InodeTable

end KernelAarch64.Fs
