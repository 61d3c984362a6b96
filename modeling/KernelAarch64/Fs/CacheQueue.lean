import KernelAarch64.Fs.Defines

/-!
# The list of cached blocks (`fs/cache_queue.c`)

The ring behind `head` is the list of its blocks, read from `head.next` on. A `Block *` is
represented by the number of the block it points to: the list never holds two blocks with one
number (`Cache.Rep` below), and a pointer whose block is not in the list any more is dangling.

`Fs.CacheRing` has the functions on the pointers, and connects them to these on lists.
-/

namespace KernelAarch64.Fs

/-- `EVICTION_THRESHOLD` -/
abbrev evictionThreshold : Nat := 20

/-- `Block`, less its list node. `locked` is the state of its sleep lock; `acquired` is the field of
that name, which `cache_acquire` sets and `cache_release` clears. -/
structure Block where
  blockNo : Nat
  acquired : Bool
  pinned : Bool
  locked : Bool
  valid : Bool
  data : BlockData

/-- The scavenger passes over a block that is acquired or pinned. -/
def Block.busy (blk : Block) : Bool := blk.acquired || blk.pinned

/-- `init_block`: an invalid block with number 0, in nobody's hands. `unsafe_cache_acquire` fills it
from the device. -/
def initBlock : Block where
  blockNo := 0
  acquired := false
  pinned := false
  locked := false
  valid := false
  data := .zero

/-- `insert_cache`. `&head.prev` is the address of `head`, so the block goes right behind it. -/
def insertCache (blk : Block) (l : List Block) : List Block := blk :: l

/-- `get_cache` -/
def getCache (blockNo : Nat) (l : List Block) : Option Block := l.find? (·.blockNo = blockNo)

/-- An assignment to fields of the block with number `blockNo`. -/
def setCache (blockNo : Nat) (f : Block → Block) (l : List Block) : List Block :=
  l.map fun blk => if blk.blockNo = blockNo then f blk else blk

/-- The loop of `scavenger` on the ring and on `cached_num`, from `head.next` on. It takes out
blocks that are neither acquired nor pinned, as long as there are more than `EVICTION_THRESHOLD`. -/
def scavenger : List Block → Nat → List Block × Nat
  | [], n => ([], n)
  | blk :: rest, n =>
    if n > evictionThreshold then
      if blk.acquired = false ∧ blk.pinned = false then
        -- `remove_cache(blk); exile_cache(blk)`
        scavenger rest (n - 1)
      else
        let r := scavenger rest n
        (blk :: r.1, r.2)
    else
      (blk :: rest, n)

/-! ## Looking blocks up

`get_cache` returns the first block with the number, which is the only one. -/

variable {b : Nat} {l : List Block} {blk : Block}

/-- What is found is in the list and has the number. -/
theorem getCache_eq_some (h : getCache b l = some blk) : blk ∈ l ∧ blk.blockNo = b := by
  refine ⟨List.mem_of_find?_eq_some h, ?_⟩
  simpa using List.find?_some h

/-- Nothing is found when no block has the number. -/
theorem getCache_eq_none : getCache b l = none ↔ ∀ blk ∈ l, blk.blockNo ≠ b := by
  simp [getCache, List.find?_eq_none]

/-- A number is found exactly when a block has it. -/
theorem getCache_isSome : (∃ blk, getCache b l = some blk) ↔ ∃ blk ∈ l, blk.blockNo = b := by
  constructor
  · rintro ⟨blk, h⟩
    exact ⟨blk, getCache_eq_some h⟩
  · rintro ⟨blk, hmem, hno⟩
    cases h : getCache b l with
    | none => exact absurd hno (getCache_eq_none.mp h blk hmem)
    | some blk' => exact ⟨blk', rfl⟩

/-- With distinct numbers, every block of the list is the one its number finds. -/
theorem getCache_of_mem (hnd : (l.map Block.blockNo).Nodup) (hmem : blk ∈ l) :
    getCache blk.blockNo l = some blk := by
  induction l with
  | nil => simp at hmem
  | cons a l ih =>
    rw [List.map_cons, List.nodup_cons] at hnd
    rcases List.mem_cons.mp hmem with rfl | hmem
    · simp [getCache]
    · have hne : a.blockNo ≠ blk.blockNo := by
        intro h
        exact hnd.1 (h ▸ List.mem_map_of_mem hmem)
      rw [getCache, List.find?_cons_of_neg (by simpa using hne)]
      exact ih hnd.2 hmem

/-- A block that was just inserted is found. -/
@[simp] theorem getCache_insertCache_self (blk : Block) (l : List Block) :
    getCache blk.blockNo (insertCache blk l) = some blk := by
  simp [getCache, insertCache]

/-- An insertion does not hide the others. -/
theorem getCache_insertCache_of_ne (h : blk.blockNo ≠ b) (l : List Block) :
    getCache b (insertCache blk l) = getCache b l := by
  simp [getCache, insertCache, h]

/-! ## Assigning to a block -/

/-- An assignment that keeps the block's number keeps the numbers of the list. -/
theorem map_blockNo_setCache {f : Block → Block} (hf : ∀ blk, (f blk).blockNo = blk.blockNo)
    (b : Nat) (l : List Block) : (setCache b f l).map Block.blockNo = l.map Block.blockNo := by
  simp only [setCache, List.map_map]
  apply List.map_congr_left
  intro blk _
  simp only [Function.comp]
  split
  · exact hf blk
  · rfl

/-- An assignment neither adds nor drops a block. -/
@[simp] theorem length_setCache (b : Nat) (f : Block → Block) (l : List Block) :
    (setCache b f l).length = l.length := by
  simp [setCache]

/-- Looking up the block that was assigned to. -/
theorem getCache_setCache_self {f : Block → Block} (hf : ∀ blk, (f blk).blockNo = blk.blockNo)
    (b : Nat) (l : List Block) : getCache b (setCache b f l) = (getCache b l).map f := by
  induction l with
  | nil => rfl
  | cons a l ih =>
    by_cases h : a.blockNo = b
    · simp [getCache, setCache, h, hf]
    · simpa [getCache, setCache, h] using ih

/-- Looking up another block. -/
theorem getCache_setCache_of_ne {f : Block → Block} (hf : ∀ blk, (f blk).blockNo = blk.blockNo)
    {b c : Nat} (hbc : c ≠ b) (l : List Block) : getCache c (setCache b f l) = getCache c l := by
  induction l with
  | nil => rfl
  | cons a l ih =>
    by_cases h : a.blockNo = b
    · have hc : a.blockNo ≠ c := fun h' => hbc (h'.symm.trans h)
      simpa [getCache, setCache, h, hf, hbc.symm] using ih
    · by_cases hc : a.blockNo = c
      · simp [getCache, setCache, hc, hbc]
      · simpa [getCache, setCache, h, hc] using ih

/-- The blocks after an assignment. -/
theorem mem_setCache {f : Block → Block} :
    blk ∈ setCache b f l ↔ ∃ a ∈ l, blk = if a.blockNo = b then f a else a := by
  simp [setCache, eq_comm]

/-! ## The scavenger

It starts at `head.next`, behind which `insert_cache` puts new blocks, and it stops as soon as the
count is down to the threshold. -/

/-- The scavenger takes the blocks that are not busy out of a first part of the list. It stops at
the end of the list or at the threshold, and never goes below it. -/
theorem scavenger_eq (l : List Block) (n : Nat) : ∃ l₁ l₂, l = l₁ ++ l₂ ∧
    (scavenger l n).1 = l₁.filter Block.busy ++ l₂ ∧
    (l₂ = [] ∨ (scavenger l n).2 ≤ evictionThreshold) ∧
    (evictionThreshold ≤ n → evictionThreshold ≤ (scavenger l n).2) := by
  induction l generalizing n with
  | nil => exact ⟨[], [], rfl, rfl, .inl rfl, id⟩
  | cons a l ih =>
    by_cases hn : n > evictionThreshold
    · by_cases hfree : a.acquired = false ∧ a.pinned = false
      · have hrun : scavenger (a :: l) n = scavenger l (n - 1) := by simp [scavenger, hn, hfree]
        obtain ⟨l₁, l₂, rfl, hkept, hstop, hge⟩ := ih (n - 1)
        rw [hrun]
        refine ⟨a :: l₁, l₂, rfl, ?_, hstop, ?_⟩
        · have hbusy : a.busy = false := by simp [Block.busy, hfree]
          rw [hkept, List.filter_cons_of_neg (by simp [hbusy])]
        · intro _
          exact hge (by omega)
      · have hrun : scavenger (a :: l) n = (a :: (scavenger l n).1, (scavenger l n).2) := by
          simp [scavenger, hn, hfree]
        obtain ⟨l₁, l₂, rfl, hkept, hstop, hge⟩ := ih n
        rw [hrun]
        refine ⟨a :: l₁, l₂, rfl, ?_, hstop, hge⟩
        have hbusy : a.busy = true := by
          simp only [not_and_or, Bool.not_eq_false] at hfree
          simpa [Block.busy] using hfree
        rw [List.filter_cons_of_pos hbusy, List.cons_append, hkept]
    · have hrun : scavenger (a :: l) n = (a :: l, n) := by simp [scavenger, hn]
      rw [hrun]
      exact ⟨[], a :: l, rfl, rfl, .inr (by omega), id⟩

/-- The scavenger keeps the order of the blocks that stay. -/
theorem scavenger_sublist (l : List Block) (n : Nat) : (scavenger l n).1.Sublist l := by
  obtain ⟨l₁, l₂, hl, hkept, -⟩ := scavenger_eq l n
  rw [hkept]
  conv_rhs => rw [hl]
  exact List.filter_sublist.append (.refl l₂)

/-- The scavenger evicts only blocks that are neither acquired nor pinned. -/
theorem mem_scavenger_of_busy {n : Nat} (hmem : blk ∈ l)
    (hbusy : blk.acquired = true ∨ blk.pinned = true) : blk ∈ (scavenger l n).1 := by
  obtain ⟨l₁, l₂, rfl, hkept, -⟩ := scavenger_eq l n
  rw [hkept, List.mem_append, List.mem_filter]
  rcases List.mem_append.mp hmem with hmem | hmem
  · exact .inl ⟨hmem, by simpa [Block.busy] using hbusy⟩
  · exact .inr hmem

/-- Each eviction takes one block off the ring and one off `cached_num`. -/
theorem scavenger_count {n : Nat} (h : l.length ≤ n) :
    (scavenger l n).2 + l.length = n + (scavenger l n).1.length := by
  induction l generalizing n with
  | nil => simp [scavenger]
  | cons a l ih =>
    simp only [List.length_cons] at h
    unfold scavenger
    split
    · split
      · have := ih (n := n - 1) (by omega)
        simp only [List.length_cons]
        omega
      · have := ih (n := n) (by omega)
        simp only [List.length_cons]
        omega
    · simp

/-- If `cached_num` was the length of the list before, it is afterwards. -/
theorem scavenger_length (l : List Block) :
    (scavenger l l.length).2 = (scavenger l l.length).1.length := by
  have := scavenger_count (l := l) (Nat.le_refl _)
  omega

/-- A busy block is still found after the scavenger. -/
theorem getCache_scavenger_of_busy {n : Nat} (hnd : (l.map Block.blockNo).Nodup)
    (h : getCache b l = some blk) (hbusy : blk.acquired = true ∨ blk.pinned = true) :
    getCache b (scavenger l n).1 = some blk := by
  obtain ⟨hmem, rfl⟩ := getCache_eq_some h
  have hnd' : ((scavenger l n).1.map Block.blockNo).Nodup :=
    hnd.sublist ((scavenger_sublist l n).map _)
  exact getCache_of_mem hnd' (mem_scavenger_of_busy hmem hbusy)

end KernelAarch64.Fs
