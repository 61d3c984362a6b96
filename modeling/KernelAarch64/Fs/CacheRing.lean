import KernelAarch64.Common.List
import KernelAarch64.Fs.CacheQueue

/-!
# The list of cached blocks, pointer by pointer

`Fs.CacheQueue` reads the ring behind `head` as the list of its blocks. This is the same code on the
pointers: a `ListNode` is known by its address, of type `α`, and `block` is `node2blk`, the block a
node is part of. The loops run on fuel, of which the length of the ring is enough.

`insert_cache` passes `&head.prev` to `merge_list`. The first member of a `ListNode` is `prev`, so
this is the address of `head` itself and the new block comes first in the list, where `get_cache`
and `scavenger` start. -/

namespace KernelAarch64.Fs

open KernelAarch64.Lib KernelAarch64.Common

variable {α : Type*} [DecidableEq α]

/-- The ring behind `head` holds the blocks of `l`, in this order. -/
def RingOf (k : Links α) (block : α → Block) (head : α) (l : List Block) : Prop :=
  ∃ nodes, k.Ring (head :: nodes) ∧ nodes.map block = l

/-- `insert_cache` on the pointers. -/
def ringInsert (k : Links α) (head node : α) : Links α := mergeList k head node

/-- The loop of `get_cache` on the pointers, from `node` on. The outer `none` is a loop that runs
out of fuel, the inner one a ring without the block. -/
def ringGet (k : Links α) (block : α → Block) (head : α) (blockNo : Nat) :
    Nat → α → Option (Option α)
  | 0, _ => none
  | fuel + 1, node =>
    if node = head then some none
    else if (block node).blockNo = blockNo then some (some node)
    else ringGet k block head blockNo fuel (k.next node)

/-- The loop of `scavenger` on the pointers and `cached_num`, from `node` on. The next node is read
before the block is taken out of the ring, as in the source. -/
def ringScavenger (block : α → Block) (head : α) : Nat → Links α → α → Nat → Option (Links α × Nat)
  | 0, _, _, _ => none
  | fuel + 1, k, node, n =>
    if node ≠ head ∧ n > evictionThreshold then
      -- The step to the next node comes before the node is taken out.
      let next := k.next node
      if (block node).acquired = false ∧ (block node).pinned = false then
        ringScavenger block head fuel (detachFromList k node) next (n - 1)
      else
        ringScavenger block head fuel k next n
    else
      some (k, n)

variable {k : Links α} {block : α → Block} {head node : α} {l : List Block}

theorem initListNode_ringOf (k : Links α) (block : α → Block) (head : α) :
    RingOf (initListNode k head) block head [] :=
  ⟨[], initListNode_ring k head, rfl⟩

/-- `insert_cache` of a block that is not in the ring. -/
theorem ringInsert_ringOf (nodes : List α) (hring : k.Ring (head :: nodes))
    (hnode : k.Ring [node]) (hout : node ∉ head :: nodes) :
    RingOf (ringInsert k head node) block head (insertCache (block node) (nodes.map block)) := by
  refine ⟨node :: nodes, ?_, rfl⟩
  have hdisj : List.Disjoint (head :: nodes) [node] := List.disjoint_singleton.mpr hout
  exact mergeList_rings hring hnode hdisj

/-- The loop of `get_cache` finds what `getCache` finds in the rest of the list. -/
theorem ringGet_eq (b : Nat) {before after : List α} (hring : k.Ring (head :: (before ++ after)))
    (hnode : (after ++ [head]).head? = some node) {fuel : Nat} (hfuel : after.length < fuel) :
    ∃ r, ringGet k block head b fuel node = some r ∧
      r.map block = getCache b (after.map block) := by
  induction after generalizing before node fuel with
  | nil =>
    obtain ⟨fuel, rfl⟩ : ∃ f, fuel = f + 1 := ⟨fuel - 1, by simp at hfuel; omega⟩
    have hhead : head = node := by simpa using hnode
    exact ⟨none, by simp [ringGet, hhead], rfl⟩
  | cons y after ih =>
    obtain ⟨fuel, rfl⟩ : ∃ f, fuel = f + 1 := ⟨fuel - 1, by simp at hfuel; omega⟩
    obtain rfl : y = node := by simpa using hnode
    rw [ringGet, if_neg (hring.ne_head)]
    by_cases hb : (block y).blockNo = b
    · exact ⟨some y, by rw [if_pos hb], by simp [getCache, hb]⟩
    · rw [if_neg hb]
      have hring' : k.Ring (head :: ((before ++ [y]) ++ after)) := by simpa using hring
      obtain ⟨r, hr, hmap⟩ := ih hring' (hring.next_mid) (by simpa using hfuel)
      exact ⟨r, hr, by rw [hmap]; simp [getCache, hb]⟩

/-- The loop of `scavenger` does to the rest of the ring what `scavenger` does to the list, and
leaves the part behind it alone. -/
theorem ringScavenger_eq {before after : List α} (hring : k.Ring (head :: (before ++ after)))
    (hnode : (after ++ [head]).head? = some node) (n : Nat) {fuel : Nat}
    (hfuel : after.length < fuel) :
    ∃ k' kept, ringScavenger block head fuel k node n =
        some (k', (scavenger (after.map block) n).2) ∧
      k'.Ring (head :: (before ++ kept)) ∧
      kept.map block = (scavenger (after.map block) n).1 := by
  induction after generalizing before node fuel k n with
  | nil =>
    obtain ⟨fuel, rfl⟩ : ∃ f, fuel = f + 1 := ⟨fuel - 1, by simp at hfuel; omega⟩
    have hhead : head = node := by simpa using hnode
    exact ⟨k, [], by simp [ringScavenger, hhead, scavenger], hring, rfl⟩
  | cons y after ih =>
    obtain ⟨fuel, rfl⟩ : ∃ f, fuel = f + 1 := ⟨fuel - 1, by simp at hfuel; omega⟩
    obtain rfl : y = node := by simpa using hnode
    have hfuel' : after.length < fuel := by simpa using hfuel
    have hy := hring.ne_head
    have hnext := hring.next_mid
    by_cases hn : n > evictionThreshold
    · by_cases hfree : (block y).acquired = false ∧ (block y).pinned = false
      · obtain ⟨k', kept, hrun, hring', hmap⟩ := ih (detachFromList_mid hring) hnext (n - 1) hfuel'
        refine ⟨k', kept, ?_, hring', ?_⟩
        · rw [ringScavenger, if_pos ⟨hy, hn⟩, if_pos hfree, hrun]
          simp [scavenger, hn, hfree]
        · rw [hmap]
          simp [scavenger, hn, hfree]
      · have hring' : k.Ring (head :: ((before ++ [y]) ++ after)) := by simpa using hring
        obtain ⟨k', kept, hrun, hring'', hmap⟩ := ih hring' hnext n hfuel'
        refine ⟨k', y :: kept, ?_, by simpa using hring'', ?_⟩
        · rw [ringScavenger, if_pos ⟨hy, hn⟩, if_neg hfree, hrun]
          simp [scavenger, hn, hfree]
        · rw [List.map_cons, hmap]
          simp [scavenger, hn, hfree]
    · refine ⟨k, y :: after, ?_, hring, ?_⟩
      · rw [ringScavenger, if_neg (fun h => hn h.2)]
        simp [scavenger, hn]
      · simp [scavenger, hn]

/-- `get_cache` on the pointers finds the block `getCache` finds. -/
theorem ringGet_refines (b : Nat) (h : RingOf k block head l) {fuel : Nat} (hfuel : l.length < fuel) :
    ∃ r, ringGet k block head b fuel (k.next head) = some r ∧ r.map block = getCache b l := by
  obtain ⟨nodes, hring, rfl⟩ := h
  rw [List.length_map] at hfuel
  have hring' : k.Ring (head :: ([] ++ nodes)) := hring
  exact ringGet_eq b hring' hring.next_head hfuel

/-- `scavenger` on the pointers leaves the ring of the blocks that `scavenger` leaves. -/
theorem ringScavenger_refines (h : RingOf k block head l) (n : Nat) {fuel : Nat}
    (hfuel : l.length < fuel) :
    ∃ k', ringScavenger block head fuel k (k.next head) n = some (k', (scavenger l n).2) ∧
      RingOf k' block head (scavenger l n).1 := by
  obtain ⟨nodes, hring, rfl⟩ := h
  rw [List.length_map] at hfuel
  have hring' : k.Ring (head :: ([] ++ nodes)) := hring
  obtain ⟨k', kept, hrun, hkept, hmap⟩ := ringScavenger_eq hring' hring.next_head n hfuel
  exact ⟨k', hrun, kept, hkept, hmap⟩

end KernelAarch64.Fs
