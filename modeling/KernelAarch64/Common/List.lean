import KernelAarch64.Lib.Ring.Heap
import Mathlib.Logic.Function.Basic

/-!
# Circular lists (`common/list.c`)

The `ListNode` of an object is known by the object, of type `α`; `Links α` holds the `next` and
`prev` of all of them. `merge_list` joins two rings and `detach_from_list` takes one node out.

`list_splicing` is the main result, over heaps of rings of any length. `mergeList_rings` and
`detachFromList_ring` give the new rings; the frame lemmas say that nodes of other rings keep their
pointers, so that those stay rings. `Links.Ring` and its lemmas are in `Lib.Ring`.
-/

namespace KernelAarch64.Common

open KernelAarch64.Lib

variable {α : Type*} [DecidableEq α]

/-- `node->next = target` -/
def setNext (k : Links α) (node target : α) : Links α :=
  { k with next := Function.update k.next node target }

/-- `node->prev = target` -/
def setPrev (k : Links α) (node target : α) : Links α :=
  { k with prev := Function.update k.prev node target }

/-- `init_list_node` -/
def initListNode (k : Links α) (node : α) : Links α := setNext (setPrev k node node) node node

/-- `merge_list`, for two nodes that are not `NULL`. It returns `node1`. The two links that are read
are read before any is written, so the order of the four writes matters only where the nodes are
neighbours. -/
def mergeList (k : Links α) (node1 node2 : α) : Links α :=
  let node3 := k.next node1
  let node4 := k.prev node2
  let k := setNext k node1 node2
  let k := setPrev k node2 node1
  let k := setNext k node4 node3
  setPrev k node3 node4

/-- `detach_from_list`. The neighbours are linked to each other, through the node's own links, and
the node is made a ring of its own. -/
def detachFromList (k : Links α) (node : α) : Links α :=
  let k := setNext k (k.prev node) (k.next node)
  let k := setPrev k (k.next node) (k.prev node)
  initListNode k node

/-- `merge_list`, with what it returns. `NULL` is `none`, and then the other node is returned and
nothing is written. -/
def mergeListPtr (k : Links α) : Option α → Option α → Links α × Option α
  | none, node2 => (k, node2)
  | some node1, none => (k, some node1)
  | some node1, some node2 => (mergeList k node1 node2, some node1)

/-- `detach_from_list`, with what it returns: the node before the one that leaves, or `NULL` if that
was the only node of its ring. -/
def detachFromListPtr (k : Links α) (node : α) : Links α × Option α :=
  let prev := k.prev node
  (detachFromList k node, if prev = node then none else some prev)

variable {k : Links α} {a x : α} {l m : List α}

/-- An initialized node is a ring of its own. -/
theorem initListNode_ring (k : Links α) (a : α) : (initListNode k a).Ring [a] := by
  apply Links.Ring.of_chain (List.nodup_singleton a) (.singleton a)
  intro x hx y hy
  cases hx
  cases hy
  exact ⟨Function.update_self .., Function.update_self ..⟩

/-- A node outside a ring is initialized. -/
theorem initListNode_frame (h : k.Ring l) (ha : a ∉ l) : (initListNode k a).Ring l := by
  have hne : ∀ x ∈ l, x ≠ a := fun x hx hxa => ha (hxa ▸ hx)
  apply h.congr
  · intro x hx
    exact Function.update_of_ne (hne x hx) ..
  · intro x hx
    exact Function.update_of_ne (hne x hx) ..

/-- Where the `next` pointers lead. -/
theorem mergeList_next (k : Links α) (a x y : α) : (mergeList k a x).next y =
    if y = k.prev x then k.next a else if y = a then x else k.next y := by
  simp only [mergeList, setNext, setPrev, Function.update_apply]

/-- Where the `prev` pointers lead. -/
theorem mergeList_prev (k : Links α) (a x y : α) : (mergeList k a x).prev y =
    if y = k.next a then k.prev x else if y = x then a else k.prev y := by
  simp only [mergeList, setNext, setPrev, Function.update_apply]

/-- `merge_list` joins two rings: the second one, read from `node2`, comes right behind `node1`. The
links that change are the two at each end; the cases are whether a ring has one node or more. -/
theorem mergeList_rings (ha : k.Ring (a :: l)) (h : k.Ring (x :: m))
    (hdisj : List.Disjoint (a :: l) (x :: m)) : (mergeList k a x).Ring (a :: (x :: m ++ l)) := by
  have hhead : (l ++ [a]).head? = some (k.next a) := ha.next_head
  have hlast : (x :: m).getLast? = some (k.prev x) := h.prev_head
  have hfirst : k.next a ∈ a :: l := ha.next_mem
  have hend : k.prev x ∈ x :: m := h.prev_mem
  have hne : ∀ y ∈ a :: l, ∀ z ∈ x :: m, y ≠ z := fun y hy z hz hyz => hdisj hy (hyz ▸ hz)
  have hax : a ≠ x := hne a (by simp) x (by simp)
  have hnext := mergeList_next k a x
  have hprev := mergeList_prev k a x
  -- Inside the two lists no pointer changes.
  have hsecond : List.IsChain (mergeList k a x).Linked (x :: m) := by
    refine Links.isChain_congr h.chain ?_ ?_
    · intro y hy
      have hyl : y ≠ k.prev x := fun hyl => h.prev_head_notMem (hyl ▸ hy)
      have hya : y ≠ a := (hne a (by simp) y (List.dropLast_subset _ hy)).symm
      rw [hnext, if_neg hyl, if_neg hya]
    · intro y hy
      have hyf : y ≠ k.next a := (hne _ hfirst y (List.mem_of_mem_tail hy)).symm
      have hyx : y ≠ x := fun hyx => (List.nodup_cons.mp h.nodup).1 (hyx ▸ hy)
      rw [hprev, if_neg hyf, if_neg hyx]
  have hrest : List.IsChain (mergeList k a x).Linked (l ++ [a]) := by
    refine Links.isChain_congr ha.tail.chain ?_ ?_
    · intro y hy
      rw [List.dropLast_concat] at hy
      have hyl : y ≠ k.prev x := hne y (by simp [hy]) _ hend
      have hya : y ≠ a := fun hya => (List.nodup_cons.mp ha.nodup).1 (hya ▸ hy)
      rw [hnext, if_neg hyl, if_neg hya]
    · intro y hy
      have hyf : y ≠ k.next a := by
        rintro rfl
        have hsplit : l ++ [a] = k.next a :: (l ++ [a]).tail := List.eq_cons_of_mem_head? hhead
        have hnodup := ha.tail.nodup
        rw [hsplit, List.nodup_cons] at hnodup
        exact hnodup.1 hy
      have hmem : y ∈ a :: l := by
        have := List.mem_of_mem_tail hy
        simpa [or_comm] using this
      rw [hprev, if_neg hyf, if_neg (hne y hmem x (by simp))]
  refine ⟨?_, ?_⟩
  · obtain ⟨hal, hl⟩ := List.nodup_cons.mp ha.nodup
    refine List.nodup_cons.mpr ⟨?_, h.nodup.append hl ?_⟩
    · rw [List.mem_append, not_or]
      exact ⟨fun hmem => hdisj (by simp) hmem, hal⟩
    · exact fun y hy hyl => hdisj (List.mem_cons_of_mem a hyl) hy
  · have hjoin : a :: (x :: m ++ l) ++ [a] = a :: (x :: m ++ (l ++ [a])) := by simp
    rw [hjoin]
    refine List.isChain_cons_cons.mpr ⟨⟨?_, ?_⟩, hsecond.append hrest ?_⟩
    · rw [hnext, if_neg (hne a (by simp) _ hend), if_pos rfl]
    · rw [hprev, if_neg (hne _ hfirst x (by simp)).symm, if_pos rfl]
    · intro y hy z hz
      rw [hlast] at hy
      rw [hhead] at hz
      cases hy
      cases hz
      exact ⟨by rw [hnext, if_pos rfl], by rw [hprev, if_pos rfl]⟩

/-- A single node goes in front of a ring. -/
theorem mergeList_ring (ha : k.Ring [a]) (h : k.Ring (x :: m)) (hout : a ∉ x :: m) :
    (mergeList k a x).Ring (a :: x :: m) := by
  have hdisj : List.Disjoint [a] (x :: m) := by simpa using hout
  simpa using mergeList_rings ha h hdisj

/-- The first node of a ring is taken out, and is a ring of its own. As a ring may be read from any
of its nodes, this is about every node of a ring. -/
theorem detachFromList_ring (h : k.Ring (a :: x :: m)) :
    (detachFromList k a).Ring (x :: m) ∧ (detachFromList k a).Ring [a] := by
  refine ⟨?_, initListNode_ring _ a⟩
  obtain ⟨hax, hchain⟩ := List.isChain_cons_cons.mp h.chain
  obtain ⟨hout, hnodup⟩ := List.nodup_cons.mp h.nodup
  have hlast : (x :: m).getLast? = some (k.prev a) := by
    rw [← List.getLast?_cons_cons (a := a)]
    exact h.prev_head
  have hmem : k.prev a ∈ x :: m := List.mem_of_mem_getLast? hlast
  have hne : ∀ y ∈ x :: m, y ≠ a := fun y hy hya => hout (hya ▸ hy)
  have hnext : ∀ y ∈ x :: m, (detachFromList k a).next y =
      if y = k.prev a then x else k.next y := by
    intro y hy
    simp only [detachFromList, initListNode, setNext, setPrev, hax.1, Function.update_apply,
      if_neg (hne y hy)]
  have hprev : ∀ y ∈ x :: m, (detachFromList k a).prev y =
      if y = x then k.prev a else k.prev y := by
    intro y hy
    simp only [detachFromList, initListNode, setNext, setPrev, hax.1, Function.update_apply,
      if_neg (hne y hy), (hne _ hmem).symm, if_false]
  refine Links.Ring.of_chain hnodup (Links.isChain_congr hchain ?_ ?_) ?_
  · intro y hy
    have hyl : y ≠ k.prev a := by
      intro hyl
      apply h.prev_head_notMem
      rw [← hyl, List.dropLast_cons_cons]
      exact List.mem_cons_of_mem a hy
    rw [hnext y (List.dropLast_subset _ hy), if_neg hyl]
  · intro y hy
    have hyx : y ≠ x := fun hyx => (List.nodup_cons.mp hnodup).1 (hyx ▸ hy)
    rw [hprev y (List.mem_of_mem_tail hy), if_neg hyx]
  · intro y hy b hb
    have hb : x = b := by simpa using hb
    have hy : k.prev a = y := by
      rw [hlast] at hy
      exact Option.some.inj hy
    subst hb hy
    exact ⟨by rw [hnext _ hmem, if_pos rfl], by rw [hprev x (by simp), if_pos rfl]⟩

/-- A node in the middle of a ring is taken out. -/
theorem detachFromList_mid (h : k.Ring (a :: (l ++ x :: m))) :
    (detachFromList k x).Ring (a :: (l ++ m)) := by
  have hrest : (detachFromList k x).Ring (m ++ a :: l) := by
    cases m with
    | nil => exact (detachFromList_ring h.rotate_mid).1
    | cons y m => exact (detachFromList_ring h.rotate_mid).1
  exact hrest.rotate

/-! ## A heap of rings

Every node is in one ring. The two functions change at most two of them. -/

/-- `merge_list` writes to nodes of the two rings only. -/
theorem mergeList_frame (ha : k.Ring (a :: l)) (h : k.Ring (x :: m)) {y : α} (hyl : y ∉ a :: l)
    (hym : y ∉ x :: m) :
    (mergeList k a x).next y = k.next y ∧ (mergeList k a x).prev y = k.prev y := by
  have hfirst : k.next a ∈ a :: l := ha.next_mem
  have hend : k.prev x ∈ x :: m := h.prev_mem
  have hya : y ≠ a := fun hya => hyl (hya ▸ List.mem_cons_self)
  have hyx : y ≠ x := fun hyx => hym (hyx ▸ List.mem_cons_self)
  have hyf : y ≠ k.next a := fun hyf => hyl (hyf ▸ hfirst)
  have hye : y ≠ k.prev x := fun hye => hym (hye ▸ hend)
  rw [mergeList_next, mergeList_prev, if_neg hye, if_neg hya, if_neg hyf, if_neg hyx]
  exact ⟨rfl, rfl⟩

/-- `detach_from_list` writes to nodes of the ring only: the links of every node outside of it are
as they were. -/
theorem detachFromList_frame (h : k.Ring (a :: l)) {y : α} (hy : y ∉ a :: l) :
    (detachFromList k a).next y = k.next y ∧ (detachFromList k a).prev y = k.prev y := by
  have hnext : k.next a ∈ a :: l := h.next_mem
  have hprev : k.prev a ∈ a :: l := h.prev_mem
  have hya : y ≠ a := fun hya => hy (hya ▸ List.mem_cons_self)
  have hyn : y ≠ k.next a := fun hyn => hy (hyn ▸ hnext)
  have hyp : y ≠ k.prev a := fun hyp => hy (hyp ▸ hprev)
  by_cases hself : a = k.prev a
  · have hone : k.next a = a := by
      have hlinked := h.linked_prev.1
      rwa [← hself] at hlinked
    simp [detachFromList, initListNode, setNext, setPrev, ← hself, hone, hya]
  · simp [detachFromList, initListNode, setNext, setPrev, hself, hya, hyn, hyp]

/-- What `detach_from_list` leaves of a ring. -/
theorem detachFromList_rest (h : k.Ring (a :: l)) : (detachFromList k a).Ring l := by
  cases l with
  | nil => trivial
  | cons x l => exact (detachFromList_ring h).1

/-- Taking a node out again that was put behind another one changes nothing in the end: the heap is
the same function, not only the rings. -/
theorem detachFromList_mergeList (ha : k.Ring (a :: l)) (h : k.Ring [x]) (hx : x ∉ a :: l) :
    detachFromList (mergeList k a x) x = k := by
  obtain ⟨hnx, hpx⟩ : k.Linked x x := h.turn rfl rfl
  have hback : k.prev (k.next a) = a := ha.linked_next.2
  have hfirst : k.next a ∈ a :: l := ha.next_mem
  have hax : a ≠ x := fun hax => hx (hax ▸ List.mem_cons_self)
  have hfx : k.next a ≠ x := fun hfx => hx (hfx ▸ hfirst)
  have hnext : (mergeList k a x).next x = k.next a := by
    rw [mergeList_next, hpx, if_pos rfl]
  have hprev : (mergeList k a x).prev x = a := by
    rw [mergeList_prev, if_neg hfx.symm, if_pos rfl]
  have hnexts : (detachFromList (mergeList k a x) x).next = k.next := by
    funext y
    simp only [detachFromList, initListNode, setNext, setPrev, hprev, hnext, Function.update_apply,
      mergeList_next, hpx]
    split
    · next hy => rw [hy, hnx]
    · split
      · next hy => rw [hy]
      · rfl
  have hprevs : (detachFromList (mergeList k a x) x).prev = k.prev := by
    funext y
    simp only [detachFromList, initListNode, setNext, setPrev, hprev, hnext, Function.update_apply,
      hax.symm, if_false, mergeList_prev, hpx]
    split
    · next hy => rw [hy, hpx]
    · split
      · next hy => rw [hy, hback]
      · rfl
  exact congrArg₂ Links.mk hnexts hprevs

/-- **Splicing.** In a heap of rings, `merge_list` makes one ring of two, which reads `a`, then the
ring of `b` from `b` on, then the rest of the ring of `a`; `detach_from_list` makes a node a ring of
its own, leaves the others in their order, and returns the node before it unless there is none; and
to detach a single node that was merged gives back the heap. -/
theorem list_splicing (hk : k.Rings) :
    (∀ a b l m, k.Ring (a :: l) → k.Ring (b :: m) → b ∉ a :: l →
      ∃ k', mergeListPtr k (some a) (some b) = (k', some a) ∧ k'.Rings ∧
        k'.Ring (a :: (b :: m ++ l)) ∧
        ∀ y, y ∉ a :: l → y ∉ b :: m → k'.next y = k.next y ∧ k'.prev y = k.prev y) ∧
    (∀ n l, k.Ring (n :: l) →
      ∃ k', detachFromListPtr k n = (k', if l = [] then none else some (k.prev n)) ∧ k'.Rings ∧
        k'.Ring [n] ∧ k'.Ring l ∧
        ∀ y, y ∉ n :: l → k'.next y = k.next y ∧ k'.prev y = k.prev y) ∧
    ∀ a x l, k.Ring (a :: l) → k.Ring [x] → x ∉ a :: l →
      (detachFromListPtr (mergeListPtr k (some a) (some x)).1 x).1 = k := by
  refine ⟨?_, ?_, ?_⟩
  · intro a b l m ha hb hout
    have hdisj : List.Disjoint (a :: l) (b :: m) := ha.disjoint hb hout
    have hring := mergeList_rings ha hb hdisj
    refine ⟨mergeList k a b, rfl, ?_, hring, fun y hyl hym => mergeList_frame ha hb hyl hym⟩
    refine hk.of_frame (r := a :: (b :: m ++ l)) ?_ ?_ ?_
    · intro y hy
      obtain ⟨l', hl', -⟩ := hring.from_mem hy
      exact ⟨l', hl'⟩
    · intro y hy
      apply mergeList_frame ha hb
      · grind
      · grind
    · intro y l' hy hl'
      have hdisja := ha.disjoint hl' (by grind)
      have hdisjb := hb.disjoint hl' (by grind)
      intro z hz hzl
      have hz' : z ∈ a :: l ∨ z ∈ b :: m := by grind
      rcases hz' with hz' | hz'
      · exact hdisja hz' hzl
      · exact hdisjb hz' hzl
  · intro n l hn
    have hone : (detachFromList k n).Ring [n] := initListNode_ring _ n
    have hrest := detachFromList_rest hn
    refine ⟨detachFromList k n, ?_, ?_, hone, hrest, fun y hy => detachFromList_frame hn hy⟩
    · simp only [detachFromListPtr, hn.prev_eq_self_iff]
    · refine hk.of_frame (r := n :: l) ?_ (fun y hy => detachFromList_frame hn hy)
        fun y l' hy hl' => hn.disjoint hl' hy
      intro y hy
      rcases List.mem_cons.mp hy with rfl | hy
      · exact ⟨[], hone⟩
      · obtain ⟨l', hl', -⟩ := hrest.from_mem hy
        exact ⟨l', hl'⟩
  · intro a x l ha hx hout
    exact detachFromList_mergeList ha hx hout

/-- A heap of rings of three nodes each. -/
def ringsOfThree : Links Nat where
  next n := if n % 3 = 2 then n - 2 else n + 1
  prev n := if n % 3 = 0 then n + 2 else n - 1

theorem ringsOfThree_ring (j : Nat) : ringsOfThree.Ring [3 * j, 3 * j + 1, 3 * j + 2] := by
  refine ⟨by simp, ?_⟩
  simp only [List.cons_append, List.nil_append, List.isChain_cons_cons, List.isChain_singleton,
    and_true, Links.Linked, ringsOfThree]
  refine ⟨⟨?_, ?_⟩, ⟨?_, ?_⟩, ?_, ?_⟩ <;> split <;> omega

/-- Every node of this heap is in a ring. -/
theorem ringsOfThree_rings : ringsOfThree.Rings := by
  intro x
  have hx : x ∈ [3 * (x / 3), 3 * (x / 3) + 1, 3 * (x / 3) + 2] := by
    simp only [List.mem_cons, List.not_mem_nil, or_false]
    omega
  obtain ⟨l, hl, -⟩ := (ringsOfThree_ring (x / 3)).from_mem hx
  exact ⟨l, hl⟩

/-- Two rings of three nodes are merged in their middle, a node in the middle of the new ring is
taken out, and is merged and taken out again. -/
theorem list_splicing_two : ∃ k' k'' : Links Nat,
    mergeListPtr ringsOfThree (some 1) (some 4) = (k', some 1) ∧ k'.Ring [1, 4, 5, 3, 2, 0] ∧
      detachFromListPtr k' 5 = (k'', some 4) ∧ k''.Ring [3, 2, 0, 1, 4] ∧ k''.Ring [5] ∧
      (detachFromListPtr (mergeListPtr k'' (some 0) (some 5)).1 5).1 = k'' := by
  have hfirst : ringsOfThree.Ring [1, 2, 0] := (ringsOfThree_ring 0).rotate (l := [0])
  have hsecond : ringsOfThree.Ring [4, 5, 3] := (ringsOfThree_ring 1).rotate (l := [3])
  obtain ⟨hmerge, -, -⟩ := list_splicing ringsOfThree_rings
  obtain ⟨k', hk', hrings, hring, -⟩ := hmerge 1 4 [2, 0] [5, 3] hfirst hsecond (by decide)
  have hmiddle : k'.Ring [5, 3, 2, 0, 1, 4] := Links.Ring.rotate (l := [1, 4]) hring
  obtain ⟨-, hdetach, -⟩ := list_splicing hrings
  obtain ⟨k'', hk'', hrings', hone, hrest, -⟩ := hdetach 5 [3, 2, 0, 1, 4] hmiddle
  have hprev : k'.prev 5 = 4 := (Option.some.inj hmiddle.prev_head).symm
  obtain ⟨-, -, hback⟩ := list_splicing hrings'
  have hzero : k''.Ring [0, 1, 4, 3, 2] := Links.Ring.rotate (l := [3, 2]) hrest
  refine ⟨k', k'', hk', hring, ?_, hrest, hone, hback 0 5 [1, 4, 3, 2] hzero hone (by decide)⟩
  rw [hk'', hprev]
  rfl

end KernelAarch64.Common
