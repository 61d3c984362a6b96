import KernelAarch64.Lib.Ring
import Mathlib.Dynamics.PeriodicPts.Lemmas

/-!
# Heaps of circular lists

A heap in which every node is on a ring. Two rings with a node in common are the same ring, read
from different nodes, so the rings are the parts of the heap. In a finite heap, all that is needed
is that `next` and `prev` undo each other. -/

namespace KernelAarch64.Lib

namespace Links

variable {α : Type*} {k k' : Links α} {a x y : α} {l m r : List α}

/-- Every node is on a ring. -/
def Rings (k : Links α) : Prop := ∀ x, ∃ l, k.Ring (x :: l)

/-- `next` and `prev` undo each other. -/
def Inverse (k : Links α) : Prop := (∀ x, k.prev (k.next x) = x) ∧ ∀ x, k.next (k.prev x) = x

namespace Ring

/-- A ring is a matter of the pointers of its nodes. -/
theorem congr (h : k.Ring l) (hnext : ∀ x ∈ l, k'.next x = k.next x)
    (hprev : ∀ x ∈ l, k'.prev x = k.prev x) : k'.Ring l := by
  refine of_chain h.nodup (isChain_congr h.chain ?_ ?_) ?_
  · intro x hx
    exact hnext x (List.dropLast_subset l hx)
  · intro x hx
    exact hprev x (List.mem_of_mem_tail hx)
  · intro x hx y hy
    obtain ⟨h₁, h₂⟩ := h.turn hx hy
    exact ⟨(hnext x (List.mem_of_mem_getLast? hx)).trans h₁,
      (hprev y (List.mem_of_mem_head? hy)).trans h₂⟩

/-- The ring read from a node of it. -/
theorem from_mem (h : k.Ring l) (hx : x ∈ l) : ∃ m, k.Ring (x :: m) ∧ (x :: m).Perm l := by
  obtain ⟨l₁, l₂, rfl⟩ := List.append_of_mem hx
  have hperm : (x :: l₂ ++ l₁).Perm (l₁ ++ x :: l₂) := List.perm_append_comm
  exact ⟨l₂ ++ l₁, h.rotate, hperm⟩

/-- Two ways along `next` from one node to the next occurrence of `x` are the same. By induction on
the first of them: `next` is a function, so the two go through the same nodes until one of them
meets `x`. -/
theorem chain_unique (hl : List.IsChain k.Linked (y :: l ++ [x]))
    (hm : List.IsChain k.Linked (y :: m ++ [x])) (hxl : x ∉ l) (hxm : x ∉ m) : l = m := by
  induction l generalizing y m with
  | nil =>
    cases m with
    | nil => rfl
    | cons z m =>
      have hz := (List.isChain_cons_cons.mp hm).1.1
      have hx : k.next y = x := (List.isChain_cons_cons.mp hl).1.1
      exact absurd (hx ▸ hz ▸ List.mem_cons_self) hxm
  | cons z l ih =>
    obtain ⟨⟨hz, -⟩, hl'⟩ := List.isChain_cons_cons.mp hl
    cases m with
    | nil =>
      have hx : k.next y = x := (List.isChain_cons_cons.mp hm).1.1
      exact absurd (hx ▸ hz ▸ List.mem_cons_self) hxl
    | cons w m =>
      obtain ⟨⟨hw, -⟩, hm'⟩ := List.isChain_cons_cons.mp hm
      have hzw : z = w := hz.symm.trans hw
      subst hzw
      rw [ih hl' hm' (fun h => hxl (List.mem_cons_of_mem _ h)) fun h =>
        hxm (List.mem_cons_of_mem _ h)]

theorem unique (hl : k.Ring (x :: l)) (hm : k.Ring (x :: m)) : l = m :=
  chain_unique hl.2 hm.2 (List.nodup_cons.mp hl.1).1 (List.nodup_cons.mp hm.1).1

/-- Rings with a node in common have the same nodes. -/
theorem mem_iff (hl : k.Ring l) (hm : k.Ring m) (hxl : x ∈ l) (hxm : x ∈ m) : y ∈ l ↔ y ∈ m := by
  obtain ⟨l', hl', hperm⟩ := hl.from_mem hxl
  obtain ⟨m', hm', hperm'⟩ := hm.from_mem hxm
  rw [← hperm.mem_iff, ← hperm'.mem_iff, hl'.unique hm']

/-- A node that is not on a ring is on a ring apart from it. -/
theorem disjoint (hl : k.Ring l) (hm : k.Ring (x :: m)) (hx : x ∉ l) : List.Disjoint l (x :: m) := by
  intro y hyl hym
  exact hx ((hl.mem_iff hm hyl hym).mpr List.mem_cons_self)

/-- A node points to the one after it, and this back to it. -/
theorem linked_next (h : k.Ring (x :: l)) : k.Linked x (k.next x) := by
  cases l with
  | nil =>
    have hturn : k.Linked x x := h.turn rfl rfl
    rwa [hturn.1]
  | cons y l =>
    have hxy : k.Linked x y := (List.isChain_cons_cons.mp h.2).1
    rwa [hxy.1]

theorem linked_prev (h : k.Ring (x :: l)) : k.Linked (k.prev x) x := h.turn h.prev_head rfl

/-- A node that comes before itself is alone. -/
theorem prev_eq_self_iff (h : k.Ring (a :: l)) : k.prev a = a ↔ l = [] := by
  constructor
  · intro hself
    cases l with
    | nil => rfl
    | cons x l =>
      have hlast := h.prev_head
      rw [hself, List.getLast?_cons_cons] at hlast
      exact absurd (List.mem_of_mem_getLast? hlast) (List.nodup_cons.mp h.nodup).1
  · rintro rfl
    exact Option.some.inj h.prev_head.symm

end Ring

/-- Only nodes of `r` change, a part of the heap with rings of its own, and have rings again. -/
theorem Rings.of_frame (h : k.Rings) (hr : ∀ x ∈ r, ∃ l, k'.Ring (x :: l))
    (hframe : ∀ x, x ∉ r → k'.next x = k.next x ∧ k'.prev x = k.prev x)
    (hapart : ∀ x l, x ∉ r → k.Ring (x :: l) → List.Disjoint r (x :: l)) : k'.Rings := by
  intro x
  by_cases hx : x ∈ r
  · exact hr x hx
  · obtain ⟨l, hl⟩ := h x
    have hdisj := hapart x l hx hl
    refine ⟨l, hl.congr ?_ ?_⟩
    · intro y hy
      exact (hframe y fun hyr => hdisj hyr hy).1
    · intro y hy
      exact (hframe y fun hyr => hdisj hyr hy).2

theorem Rings.inverse (h : k.Rings) : k.Inverse := by
  constructor
  · intro x
    obtain ⟨l, hl⟩ := h x
    exact hl.linked_next.2
  · intro x
    obtain ⟨l, hl⟩ := h x
    exact hl.linked_prev.1

/-- In a finite heap, a node comes back to itself along `next`. By the pigeonhole principle two of
its iterates are equal, and as `prev` undoes `next` the node itself is one of them. -/
theorem Inverse.rings [Finite α] (h : k.Inverse) : k.Rings := by
  intro x
  have hinj : Function.Injective k.next := Function.LeftInverse.injective h.1
  have hpos : 0 < Function.minimalPeriod k.next x :=
    Function.minimalPeriod_pos_of_mem_periodicPts (hinj.mem_periodicPts x)
  have hsucc : ∀ i, k.next (k.next^[i] x) = k.next^[i + 1] x :=
    fun i => (Function.iterate_succ_apply' k.next i x).symm
  have hlinked : ∀ i, k.Linked (k.next^[i] x) (k.next^[i + 1] x) := by
    intro i
    rw [← hsucc i]
    exact ⟨rfl, h.1 _⟩
  obtain ⟨n, hn⟩ : ∃ n, Function.minimalPeriod k.next x = n + 1 := ⟨_, (Nat.sub_add_cancel hpos).symm⟩
  refine ⟨(List.range n).map fun i => k.next^[i + 1] x, ?_⟩
  have hlist : x :: (List.range n).map (fun i => k.next^[i + 1] x) =
      (List.range (n + 1)).map fun i => k.next^[i] x := by
    rw [List.range_succ_eq_map, List.map_cons, List.map_map]
    rfl
  rw [hlist]
  refine Ring.of_chain ?_ ?_ ?_
  · rw [List.nodup_map_iff_inj_on List.nodup_range]
    intro i hi j hj heq
    rw [← hn] at hi hj
    exact Function.iterate_injOn_Iio_minimalPeriod (List.mem_range.mp hi) (List.mem_range.mp hj) heq
  · rw [List.isChain_iff_getElem]
    intro i hi
    simp only [List.getElem_map, List.getElem_range]
    exact hlinked i
  · intro y hy z hz
    have hy' : k.next^[n] x = y := by simpa [List.range_succ] using hy
    have hz' : x = z := by simpa [List.range_succ_eq_map] using hz
    have hback : k.next^[n + 1] x = x := by
      rw [← hn]
      exact Function.iterate_minimalPeriod
    subst hy' hz'
    have hlast := hlinked n
    rwa [hback] at hlast

theorem rings_iff_inverse [Finite α] : k.Rings ↔ k.Inverse := ⟨Rings.inverse, Inverse.rings⟩

end Links

end KernelAarch64.Lib
