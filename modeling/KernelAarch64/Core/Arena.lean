import KernelAarch64.Common.Bitmap
import KernelAarch64.Common.List
import KernelAarch64.Core.PhysicalMemory
import Mathlib.Algebra.Order.Ring.Nat

/-!
# Arenas (`core/arena.c`)

An arena hands out objects of one size from pages it takes from a page allocator. The header of a
page has a bitmap of the slots in use; the pages are one ring, read from `arena->pages` on.
`alloc_object` looks only at the first page, so a page that becomes full is turned out of the first
place, and a page that gets a free slot is moved there.

The memory is what the functions of `arena.c` see of it: the headers of the pages, the arenas, and
the page allocator as the pages it has handed out. Reading a page that is not handed out is a fault.
`alloc_object` takes the page that `allocate` would return as an argument.

The main result is `arenaRun_correct`. `ArenaOk` is the invariant: the pages of the arena are a ring
of list nodes, the bitmaps have the live objects, and the counters agree with them. It is proved on
the nodes themselves, with `Links.Ring` for the ring; each part of a call has a lemma that says what
becomes of the ring (`addPage`, `turnFull`, `movePageToHead`), and the calls are put together from
these.
-/

namespace KernelAarch64.Core

open KernelAarch64.Common KernelAarch64.Lib

/-- `ARENA_PAGE_SIZE` -/
abbrev arenaPageSize : Nat := pageSize

/-- `ARENA_MIN_OBJECT_SIZE` -/
abbrev arenaMinObjectSize : Nat := 16

/-- `sizeof(ArenaPage)`: the arena, the list node, the bitmap of 256 bits and the count. -/
abbrev sizeofArenaPage : Nat := 8 + 16 + arenaPageSize / arenaMinObjectSize / 8 + 8

/-- `ARENA_PAGE_CAPACITY` -/
abbrev arenaPageCapacity : Nat := arenaPageSize - sizeofArenaPage

/-- `ArenaPage`, less its list node: the header at the start of a page, with the bitmap of the slots
in use and their number. The slots are behind it. -/
structure ArenaPage where
  arena : Nat
  used : Nat → BitmapCell
  count : Nat

/-- `Arena`. Its lock is held from the start to the end of each call, so a call is one step. `pages`
is the address of the page that `alloc_object` looks at, or `NULL`. -/
structure Arena where
  objectSize : Nat
  maxCount : Nat
  pages : Nat
  numObjects : Nat
  numPages : Nat

/-- The memory; addresses are numbers, and `0` is `NULL`. Which pages the allocator has handed out
is kept along, so that a header that is read outside of them is a fault. -/
structure ArenaMemory where
  page : Nat → ArenaPage
  /-- The list nodes, each known by the address of its page. -/
  list : Links Nat
  arena : Nat → Arena
  /-- The pages that the page allocator has handed out. -/
  given : List Nat
  /-- The pages that went back to it, oldest first. -/
  returned : List Nat

namespace ArenaMemory

/-- An assignment to the fields of an arena. -/
def setArena (m : ArenaMemory) (arena : Nat) (x : Arena) : ArenaMemory :=
  { m with arena := Function.update m.arena arena x }

/-- An assignment to the fields of a page. -/
def setPage (m : ArenaMemory) (page : Nat) (x : ArenaPage) : ArenaMemory :=
  { m with page := Function.update m.page page x }

/-- `arena->pages = page` -/
def setPages (m : ArenaMemory) (arena page : Nat) : ArenaMemory :=
  m.setArena arena { m.arena arena with pages := page }

/-- `init_arena`. The object size has a lower and an upper bound, and each failing assertion has its
own message. The arena begins without pages. -/
def initArena (m : ArenaMemory) (arena objectSize : Nat) : Except Stop ArenaMemory := do
  kasserts (objectSize ≥ arenaMinObjectSize) "object_size >= ARENA_MIN_OBJECT_SIZE"
    "object_size = %zu is too small"
  kasserts (objectSize ≤ arenaPageCapacity) "object_size <= ARENA_PAGE_CAPACITY"
    "object_size = %zu is too large"
  return m.setArena arena
    { objectSize := objectSize
      maxCount := arenaPageCapacity / objectSize
      pages := 0
      numObjects := 0
      numPages := 0 }

/-- `init_arena_page` -/
def initArenaPage (m : ArenaMemory) (arena page : Nat) : ArenaMemory :=
  { m.setPage page ⟨arena, fun _ => 0, 0⟩ with list := initListNode m.list page }

/-- `insert_page`: the page is merged into the ring in front of the first page and becomes the
first. The first page of an arena is linked to itself already. -/
def insertPage (m : ArenaMemory) (arena page : Nat) : ArenaMemory :=
  if (m.arena arena).pages ≠ 0 then
    { m with list := mergeList m.list page (m.arena arena).pages }.setPages arena page
  else m.setPages arena page

/-- `add_page`, when `allocate` returns `page`. A page that is not aligned fails the assertion, and
`NULL` leaves the arena as it is, so that `alloc_object` finds no slot afterwards. -/
def addPage (m : ArenaMemory) (arena page : Nat) : Except Stop ArenaMemory := do
  kasserts (page % arenaPageSize = 0) "(u64)page % ARENA_PAGE_SIZE == 0"
    "page address must be aligned on ARENA_PAGE_SIZE"
  if page ≠ 0 then
    let m := ({ m with given := page :: m.given }.initArenaPage arena page).insertPage arena page
    return m.setArena arena { m.arena arena with numPages := (m.arena arena).numPages + 1 }
  else return m

/-- The address of slot `index` of a page. -/
def slot (m : ArenaMemory) (arena page index : Nat) : Nat :=
  page + sizeofArenaPage + index * (m.arena arena).objectSize

/-- The loop of `alloc_object`: the first free slot. -/
def findSlot (used : Nat → BitmapCell) (maxCount : Nat) : Option Nat :=
  (List.range maxCount).find? fun index => bitmapGet used index = false

/-- The slot is in use from now on: its bit is set, and the page and the arena count one object
more. -/
def takeSlot (m : ArenaMemory) (arena page index : Nat) : ArenaMemory :=
  let x := m.page page
  let m := m.setPage page { x with used := bitmapSet x.used index, count := x.count + 1 }
  m.setArena arena { m.arena arena with numObjects := (m.arena arena).numObjects + 1 }

/-- A full page is turned out of the first place. -/
def turnFull (m : ArenaMemory) (arena page : Nat) : ArenaMemory :=
  if (m.page page).count ≥ (m.arena arena).maxCount then m.setPages arena (m.list.next page) else m

/-- `alloc_object` once the first page was chosen. The search for a free slot always finds one,
because the page would have been turned away otherwise; the failing assertion is kept as the source
has it. -/
def allocFromFirst (m : ArenaMemory) (arena : Nat) : Except Stop (Nat × ArenaMemory) :=
  let page := (m.arena arena).pages
  if page ∈ m.given then
    match findSlot (m.page page).used (m.arena arena).maxCount with
    | some index => .ok (m.slot arena page index, (m.takeSlot arena page index).turnFull arena page)
    | none => .error (.panic
      ("assertion failed: \"object != NULL\". " ++ "arena failed to allocate object"))
  else .error .fault

/-- There is no page, or the first one is full. It is then that `alloc_object` asks for a page,
without a look at the pages behind the first one. -/
def NeedsPage (m : ArenaMemory) (arena : Nat) : Prop :=
  (m.arena arena).pages = 0 ∨
    (m.page (m.arena arena).pages).count ≥ (m.arena arena).maxCount

instance (m : ArenaMemory) (arena : Nat) : Decidable (m.NeedsPage arena) := by
  unfold NeedsPage
  infer_instance

/-- The first half of `alloc_object`: a page with a free slot comes first. -/
def choosePage (m : ArenaMemory) (arena page : Nat) : Except Stop ArenaMemory :=
  if m.NeedsPage arena then m.addPage arena page else .ok m

/-- `alloc_object`, when `allocate` returns `page` if it is called. -/
def allocObject (m : ArenaMemory) (arena page : Nat) : Except Stop (Nat × ArenaMemory) := do
  let m ← m.choosePage arena page
  m.allocFromFirst arena

/-- `get_container_page` -/
def getContainerPage (object : Nat) : Nat := object - object % arenaPageSize

/-- `move_page_to_head`. A page that is the first already is left where it is. -/
def movePageToHead (m : ArenaMemory) (arena page : Nat) : ArenaMemory :=
  if (m.arena arena).pages ≠ page then
    { m with list := detachFromList m.list page }.insertPage arena page
  else m

/-- The slot is free from now on: its bit is clear, and the page and the arena count one object
less. -/
def clearSlot (m : ArenaMemory) (arena page index : Nat) : ArenaMemory :=
  let x := m.page page
  let m := m.setPage page { x with used := bitmapClear x.used index, count := x.count - 1 }
  m.setArena arena { m.arena arena with numObjects := (m.arena arena).numObjects - 1 }

/-- `free_object`. The page is found by rounding the address down. The offset is a difference of
`usize`, so an address inside of the header wraps around and fails the first assertion or the
second. -/
def freeObject (m : ArenaMemory) (object : Nat) : Except Stop ArenaMemory := do
  let page := getContainerPage object
  if page ∈ m.given then
    let arena := (m.page page).arena
    let offset := (object + 2 ^ 64 - (page + sizeofArenaPage)) % 2 ^ 64
    kasserts (offset % (m.arena arena).objectSize = 0) "offset % arena->object_size == 0"
      "unexpected object offset = %zu"
    let index := offset / (m.arena arena).objectSize
    kasserts (bitmapGet (m.page page).used index = true)
      "bitmap_get(page->used, index) == true" "double free object at index = %zu"
    return (m.clearSlot arena page index).movePageToHead arena page
  else .error .fault

/-- `arena->allocator.free(page)`: the page goes back to the allocator. What the arena does with it
afterwards would be a fault. -/
def freePage (m : ArenaMemory) (page : Nat) : Except Stop ArenaMemory :=
  if page ∈ m.given then
    .ok { m with given := m.given.erase page, returned := m.returned ++ [page] }
  else .error .fault

/-- The loop of `clear_arena`, with at most `fuel` turns. The next page is read before the current
one is given back, and the loop ends where it began. -/
def clearFrom (head : Nat) : Nat → Nat → ArenaMemory → Except Stop ArenaMemory
  | 0, _, _ => .error .wait
  | fuel + 1, current, m => do
    let next := m.list.next current
    let m ← m.freePage current
    if next ≠ head then clearFrom head fuel next m else return m

/-- `clear_arena`, with at most `fuel` turns of its loop. An arena without pages is left alone;
objects that are still in use are lost with their pages. -/
def clearArena (m : ArenaMemory) (fuel arena : Nat) : Except Stop ArenaMemory :=
  let head := (m.arena arena).pages
  if head ≠ 0 then do
    let m ← clearFrom head fuel head m
    return m.setArena arena { m.arena arena with pages := 0, numObjects := 0, numPages := 0 }
  else .ok m

/-! The ring is turned without a look at the pages. -/

section Turn

variable (m : ArenaMemory) (arena page : Nat)

@[simp] theorem turnFull_page : (m.turnFull arena page).page = m.page := by
  unfold turnFull
  split <;> rfl

@[simp] theorem turnFull_given : (m.turnFull arena page).given = m.given := by
  unfold turnFull
  split <;> rfl

/-- The number of slots of a page stays. -/
@[simp] theorem turnFull_maxCount :
    ((m.turnFull arena page).arena arena).maxCount = (m.arena arena).maxCount := by
  unfold turnFull
  split
  · simp [setPages, setArena]
  · rfl

@[simp] theorem movePageToHead_page : (m.movePageToHead arena page).page = m.page := by
  unfold movePageToHead insertPage
  split
  · split <;> rfl
  · rfl

end Turn

end ArenaMemory

/-! ## The invariant

The header of a page counts the slots in use as well as marking them, and the arena counts the
objects of all pages. So a change in one slot has to be followed through three counters. -/

/-- How many of the first `n` slots are in use. -/
def usedSlots (used : Nat → BitmapCell) (n : Nat) : Nat :=
  (List.range n).countP fun index => bitmapGet used index

section Slots

variable {used : Nat → BitmapCell} {n j : Nat}

/-- No bit of an empty bitmap is set. -/
theorem bitmapGet_empty (i : Nat) : bitmapGet (fun _ => 0) i = false := by
  simp [bitmapGet]

/-- A new page has no slot in use. -/
theorem usedSlots_empty (n : Nat) : usedSlots (fun _ => 0) n = 0 := by
  rw [usedSlots, List.countP_eq_zero]
  intro i _
  rw [bitmapGet_empty]
  decide

/-- Two bitmaps that differ in one slot differ by one in the number of slots in use. Both
directions, taking a slot and giving it back, are read off this. -/
theorem usedSlots_succ_of {used' : Nat → BitmapCell} (hj : j < n) (hclear : bitmapGet used j = false)
    (hbits : ∀ i, bitmapGet used' i = (decide (i = j) || bitmapGet used i)) :
    usedSlots used' n = usedSlots used n + 1 := by
  unfold usedSlots
  induction n with
  | zero => cases hj
  | succ n ih =>
    simp only [List.range_succ, List.countP_append, List.countP_singleton, hbits n]
    by_cases hjn : j = n
    · -- below the slot the bitmaps agree
      have hsame : (List.range n).countP (fun i => bitmapGet used' i) =
          (List.range n).countP fun i => bitmapGet used i := by
        apply List.countP_congr
        intro i hi
        have hij : i ≠ j := by
          have := List.mem_range.mp hi
          omega
        simp [hbits, hij]
      subst hjn
      simp [hsame, hclear]
    · have hlt : j < n := by omega
      have hnj : n ≠ j := by omega
      simp only [ih hlt, hnj, decide_false, Bool.false_or]
      omega

theorem usedSlots_set (hj : j < n) (hclear : bitmapGet used j = false) :
    usedSlots (bitmapSet used j) n = usedSlots used n + 1 :=
  usedSlots_succ_of hj hclear (bitmapGet_bitmapSet used j)

/-- Giving a slot back. -/
theorem usedSlots_clear (hj : j < n) (hset : bitmapGet used j = true) :
    usedSlots used n = usedSlots (bitmapClear used j) n + 1 := by
  apply usedSlots_succ_of hj
  · simp [bitmapGet_bitmapClear]
  · intro i
    rw [bitmapGet_bitmapClear]
    by_cases hij : i = j <;> simp [hij, hset]

/-- A page with fewer slots in use than it has has a free one, and the scan of `alloc_object` finds
the first of them. -/
theorem exists_findSlot (h : usedSlots used n < n) :
    ∃ j < n, ArenaMemory.findSlot used n = some j ∧ bitmapGet used j = false := by
  cases hf : ArenaMemory.findSlot used n with
  | some j =>
    refine ⟨j, ?_, rfl, ?_⟩
    · simpa using List.mem_of_find?_eq_some hf
    · simpa using List.find?_some hf
  | none =>
    have hall : usedSlots used n = n := by
      rw [usedSlots, List.countP_eq_length.mpr, List.length_range]
      intro i hi
      have := List.find?_eq_none.mp hf i hi
      simpa using this
    omega

end Slots

/-- An arena with its page ring `ring` and the objects `live` it has handed out. The ring is that of
the list nodes, the counters are right, and the live objects are the slots whose bits are set. This
is the invariant that every call keeps. -/
structure ArenaOk (m : ArenaMemory) (arena size : Nat) (live ring : List Nat) : Prop where
  objectSize : (m.arena arena).objectSize = size
  maxCount : (m.arena arena).maxCount = arenaPageCapacity / size
  min_size : arenaMinObjectSize ≤ size
  max_size : size ≤ arenaPageCapacity
  head : (m.arena arena).pages = ring.head?.getD 0
  linked : m.list.Ring ring
  given : ∀ p ∈ ring, p ∈ m.given
  aligned : ∀ p ∈ ring, p ≠ 0 ∧ p % arenaPageSize = 0 ∧ p < 2 ^ 64
  owner : ∀ p ∈ ring, (m.page p).arena = arena
  count : ∀ p ∈ ring, (m.page p).count = usedSlots (m.page p).used (m.arena arena).maxCount
  numPages : (m.arena arena).numPages = ring.length
  numObjects : (m.arena arena).numObjects = (ring.map fun p => (m.page p).count).sum
  nodup : live.Nodup
  length : live.length = (m.arena arena).numObjects
  live_iff : ∀ o, o ∈ live ↔ ∃ p ∈ ring, ∃ i < (m.arena arena).maxCount,
    bitmapGet (m.page p).used i = true ∧ o = m.slot arena p i

/-! ## Where the slots are

An object is found again by its address alone: its page by rounding down, its slot by the offset. -/

section Layout

variable {size p q i j : Nat}

/-- A slot lies in the data area of its page. -/
theorem slot_end_le (hi : i < arenaPageCapacity / size) :
    i * size + size ≤ arenaPageCapacity := by
  have hle : (i + 1) * size ≤ arenaPageCapacity :=
    (Nat.mul_le_mul_right size hi).trans (Nat.div_mul_le_self _ _)
  rwa [Nat.succ_mul] at hle

/-- Rounding the address of an object down gives its page. -/
theorem getContainerPage_slot (hp : p % arenaPageSize = 0) (hsize : 0 < size)
    (hi : i < arenaPageCapacity / size) :
    ArenaMemory.getContainerPage (p + sizeofArenaPage + i * size) = p := by
  have hend := slot_end_le hi
  unfold ArenaMemory.getContainerPage
  unfold arenaPageCapacity sizeofArenaPage arenaPageSize arenaMinObjectSize pageSize at *
  omega

/-- Different slots have different addresses. -/
theorem slot_inj (hp : p % arenaPageSize = 0) (hq : q % arenaPageSize = 0) (hsize : 0 < size)
    (hi : i < arenaPageCapacity / size) (hj : j < arenaPageCapacity / size)
    (h : p + sizeofArenaPage + i * size = q + sizeofArenaPage + j * size) : p = q ∧ i = j := by
  have hpq : p = q := by
    rw [← getContainerPage_slot hp hsize hi, h, getContainerPage_slot hq hsize hj]
  subst hpq
  exact ⟨rfl, Nat.eq_of_mul_eq_mul_right hsize (by omega)⟩

end Layout

/-- The sum when one of the terms grows by one. -/
theorem sum_map_succ {f g : Nat → Nat} {l : List Nat} {p : Nat} (hnodup : l.Nodup) (hp : p ∈ l)
    (hgp : g p = f p + 1) (hne : ∀ q, q ≠ p → g q = f q) :
    (l.map g).sum = (l.map f).sum + 1 := by
  have hperm := List.perm_cons_erase hp
  have hrest : (l.erase p).map g = (l.erase p).map f := by
    apply List.map_congr_left
    intro q hq
    exact hne q (hnodup.mem_erase_iff.mp hq).1
  rw [(hperm.map g).sum_eq, (hperm.map f).sum_eq, List.map_cons, List.map_cons, List.sum_cons,
    List.sum_cons, hgp, hrest]
  omega

namespace ArenaOk

variable {m : ArenaMemory} {arena size p index : Nat} {live ring ring' : List Nat}

theorem size_pos (h : ArenaOk m arena size live ring) : 0 < size :=
  Nat.lt_of_lt_of_le (by decide) h.min_size

/-- The ring is linked differently and read from another page. The pages are the same, so nothing
but the order and the head changes. -/
theorem relink {k : Links Nat} {a : Nat} (h : ArenaOk m arena size live ring)
    (hperm : ring'.Perm ring) (hk : k.Ring ring') (hhead : a = ring'.head?.getD 0) :
    ArenaOk ({ m with list := k }.setPages arena a) arena size live ring' := by
  have harena : ({ m with list := k }.setPages arena a).arena arena =
      { m.arena arena with pages := a } := Function.update_self ..
  have hmem : ∀ p, p ∈ ring' ↔ p ∈ ring := fun p => hperm.mem_iff
  constructor
  case objectSize =>
    rw [harena]
    exact h.objectSize
  case maxCount =>
    rw [harena]
    exact h.maxCount
  case min_size => exact h.min_size
  case max_size => exact h.max_size
  case head =>
    rw [harena]
    exact hhead
  case linked => exact hk
  case given =>
    intro p hp
    exact h.given p ((hmem p).mp hp)
  case aligned =>
    intro p hp
    exact h.aligned p ((hmem p).mp hp)
  case owner =>
    intro p hp
    exact h.owner p ((hmem p).mp hp)
  -- The new page has no object, as its header says.
  case count =>
    intro p hp
    rw [harena]
    exact h.count p ((hmem p).mp hp)
  case numPages =>
    rw [harena, hperm.length_eq]
    exact h.numPages
  case numObjects =>
    rw [harena, (hperm.map _).sum_eq]
    exact h.numObjects
  case nodup => exact h.nodup
  case length =>
    rw [harena]
    exact h.length
  -- No slot of the new page is taken, so the objects are those of the other pages.
  case live_iff =>
    intro o
    rw [h.live_iff, harena]
    simp only [hmem, ArenaMemory.slot, harena]
    rfl

/-- The header of one page changes, and with it the number of objects and the live ones. Taking and
giving back a slot are both of this kind. -/
theorem setPage {x : ArenaPage} {n : Nat} {live' : List Nat} (h : ArenaOk m arena size live ring)
    (howner : x.arena = arena) (hcount : x.count = usedSlots x.used (m.arena arena).maxCount)
    (hsum : n = (ring.map fun q => (Function.update m.page p x q).count).sum)
    (hnodup : live'.Nodup) (hlength : live'.length = n)
    (hlive : ∀ o, o ∈ live' ↔ ∃ q ∈ ring, ∃ i < (m.arena arena).maxCount,
      bitmapGet (Function.update m.page p x q).used i = true ∧ o = m.slot arena q i) :
    ArenaOk ((m.setPage p x).setArena arena { m.arena arena with numObjects := n }) arena size
      live' ring := by
  have harena : ((m.setPage p x).setArena arena { m.arena arena with numObjects := n }).arena
      arena = { m.arena arena with numObjects := n } := Function.update_self ..
  have hpage : ∀ P : ArenaPage → Prop, P x → (∀ q ∈ ring, P (m.page q)) →
      ∀ q ∈ ring, P (Function.update m.page p x q) := by
    intro P hx hm q hq
    rw [Function.update_apply]
    split
    · exact hx
    · exact hm q hq
  constructor
  case objectSize =>
    rw [harena]
    exact h.objectSize
  case maxCount =>
    rw [harena]
    exact h.maxCount
  case min_size => exact h.min_size
  case max_size => exact h.max_size
  case head =>
    rw [harena]
    exact h.head
  case linked => exact h.linked
  case given => exact h.given
  case aligned => exact h.aligned
  case owner => exact hpage (fun y => y.arena = arena) howner h.owner
  case count =>
    rw [harena]
    exact hpage (fun y => y.count = usedSlots y.used (m.arena arena).maxCount) hcount h.count
  case numPages =>
    rw [harena]
    exact h.numPages
  case numObjects =>
    rw [harena]
    exact hsum
  case nodup => exact hnodup
  case length =>
    rw [harena]
    exact hlength
  case live_iff =>
    intro o
    rw [hlive, harena]
    simp only [ArenaMemory.slot, harena]
    rfl

/-- Two slots of the ring with one address are the same. -/
theorem slot_inj {q i j : Nat} (h : ArenaOk m arena size live ring) (hp : p ∈ ring) (hq : q ∈ ring)
    (hi : i < (m.arena arena).maxCount) (hj : j < (m.arena arena).maxCount)
    (heq : m.slot arena p i = m.slot arena q j) : p = q ∧ i = j := by
  rw [h.maxCount] at hi hj
  rw [ArenaMemory.slot, ArenaMemory.slot, h.objectSize] at heq
  exact Core.slot_inj (h.aligned p hp).2.1 (h.aligned q hq).2.1 h.size_pos hi hj heq

/-- A free slot is taken. It was no live object, as its bit was clear, so the new object is a new
one. -/
theorem takeSlot (h : ArenaOk m arena size live ring) (hp : p ∈ ring)
    (hindex : index < (m.arena arena).maxCount)
    (hclear : bitmapGet (m.page p).used index = false) :
    ArenaOk (m.takeSlot arena p index) arena size (m.slot arena p index :: live) ring := by
  have hnew : m.slot arena p index ∉ live := by
    intro hmem
    obtain ⟨q, hq, i, hi, hset, heq⟩ := (h.live_iff _).mp hmem
    obtain ⟨rfl, rfl⟩ := h.slot_inj hp hq hindex hi heq
    rw [hclear] at hset
    cases hset
  -- The page has one object less, and so has the arena.
  have hsum := sum_map_succ (f := fun q => (m.page q).count) (g := fun q => (Function.update m.page p
    { m.page p with used := bitmapSet (m.page p).used index, count := (m.page p).count + 1 } q).count)
    h.linked.nodup hp (by simp) fun q hq => by simp [Function.update_of_ne hq]
  refine h.setPage (h.owner p hp) ?_ ?_ (List.nodup_cons.mpr ⟨hnew, h.nodup⟩) ?_ ?_
  · rw [usedSlots_set hindex hclear, ← h.count p hp]
  · rw [hsum, ← h.numObjects]
    rfl
  · rw [List.length_cons, h.length]
    rfl
  · intro o
    rw [List.mem_cons, h.live_iff]
    constructor
    · intro ho
      rcases ho with rfl | ⟨q, hq, i, hi, hset, rfl⟩
      · refine ⟨p, hp, index, hindex, ?_, rfl⟩
        simp [bitmapGet_bitmapSet]
      · refine ⟨q, hq, i, hi, ?_, rfl⟩
        by_cases hqp : q = p
        · subst hqp
          simp [bitmapGet_bitmapSet, hset]
        · simpa [Function.update_of_ne hqp] using hset
    · intro ho
      obtain ⟨q, hq, i, hi, hset, rfl⟩ := ho
      by_cases hqp : q = p
      · subst hqp
        simp only [Function.update_self, bitmapGet_bitmapSet, Bool.or_eq_true,
          decide_eq_true_eq] at hset
        rcases hset with rfl | hset
        · exact .inl rfl
        · exact .inr ⟨q, hq, i, hi, hset, rfl⟩
      · rw [Function.update_of_ne hqp] at hset
        exact .inr ⟨q, hq, i, hi, hset, rfl⟩

/-- A slot in use is given back. The other live objects keep their bits. -/
theorem clearSlot (h : ArenaOk m arena size live ring) (hp : p ∈ ring)
    (hindex : index < (m.arena arena).maxCount)
    (hset : bitmapGet (m.page p).used index = true) :
    ArenaOk (m.clearSlot arena p index) arena size (live.erase (m.slot arena p index)) ring := by
  have hlive : m.slot arena p index ∈ live := (h.live_iff _).mpr ⟨p, hp, index, hindex, hset, rfl⟩
  have hused := usedSlots_clear hindex hset
  have hcount := h.count p hp
  have hsum := sum_map_succ (f := fun q => (Function.update m.page p { m.page p with
      used := bitmapClear (m.page p).used index, count := (m.page p).count - 1 } q).count)
    (g := fun q => (m.page q).count) h.linked.nodup hp (by simp; omega)
    fun q hq => by simp [Function.update_of_ne hq]
  rw [← h.numObjects] at hsum
  refine h.setPage (h.owner p hp) ?_ ?_ (h.nodup.erase _) ?_ ?_
  · show (m.page p).count - 1 = usedSlots (bitmapClear (m.page p).used index) _
    omega
  · exact Nat.sub_eq_of_eq_add hsum
  · rw [List.length_erase_of_mem hlive, h.length]
    rfl
  · intro o
    rw [h.nodup.mem_erase_iff, h.live_iff]
    constructor
    · intro ho
      obtain ⟨hne, q, hq, i, hi, hbit, rfl⟩ := ho
      refine ⟨q, hq, i, hi, ?_, rfl⟩
      by_cases hqp : q = p
      · subst hqp
        -- Two slots of one page are two addresses, so only this object is gone.
        have hine : i ≠ index := fun heq => hne (heq ▸ rfl)
        simp [bitmapGet_bitmapClear, hbit, hine]
      · simpa [Function.update_of_ne hqp] using hbit
    · intro ho
      obtain ⟨q, hq, i, hi, hbit, rfl⟩ := ho
      by_cases hqp : q = p
      · subst hqp
        simp only [Function.update_self, bitmapGet_bitmapClear, Bool.and_eq_true, Bool.not_eq_true',
          decide_eq_false_iff_not] at hbit
        refine ⟨?_, q, hq, i, hi, hbit.2, rfl⟩
        intro heq
        exact hbit.1 (h.slot_inj hq hp hi hindex heq).2
      · rw [Function.update_of_ne hqp] at hbit
        refine ⟨?_, q, hq, i, hi, hbit, rfl⟩
        intro heq
        exact hqp (h.slot_inj hq hp hi hindex heq).1

/-! ## The calls

`alloc_object` works on the first page, for which it adds one if there is no room; `free_object`
moves the page of the object to the first place, as it has room now. -/

/-- A page has room for an object. -/
theorem maxCount_pos (h : ArenaOk m arena size live ring) : 0 < (m.arena arena).maxCount := by
  rw [h.maxCount]
  exact Nat.div_pos h.max_size h.size_pos

/-- The ring is empty exactly when `arena->pages` is `NULL`. -/
theorem pages_eq_zero (h : ArenaOk m arena size live ring) :
    (m.arena arena).pages = 0 ↔ ring = [] := by
  rw [h.head]
  cases ring with
  | nil => simp
  | cons p ring => simpa using (h.aligned p List.mem_cons_self).1

/-- The memory after `add_page`, with the list nodes `k`. It is written down once, so that the
proofs need not unfold `init_arena_page` and `insert_page` again. -/
def withPage (m : ArenaMemory) (arena page : Nat) (k : Links Nat) : ArenaMemory where
  page := Function.update m.page page ⟨arena, fun _ => 0, 0⟩
  list := k
  arena := Function.update m.arena arena
    { m.arena arena with pages := page, numPages := (m.arena arena).numPages + 1 }
  given := page :: m.given
  returned := m.returned

/-- `add_page` links the page into the ring before the first one. The two cases are whether the
arena had a page. -/
theorem addPage_eq {page : Nat} (h : ArenaOk m arena size live ring) (hzero : page ≠ 0)
    (haligned : page % arenaPageSize = 0) (hout : page ∉ ring) :
    ∃ k : Links Nat, k.Ring (page :: ring) ∧
      m.addPage arena page = .ok (withPage m arena page k) := by
  have hself := initListNode_ring m.list page
  have hframe := initListNode_frame h.linked hout
  rw [ArenaMemory.addPage, kasserts_of haligned, ok_bind, if_pos hzero]
  cases hring : ring with
  | nil =>
    have hpages : (m.arena arena).pages = 0 := h.pages_eq_zero.mpr hring
    refine ⟨_, hself, ?_⟩
    simp [withPage, ArenaMemory.insertPage, ArenaMemory.initArenaPage, ArenaMemory.setPage,
      ArenaMemory.setPages, ArenaMemory.setArena, hpages]
    rfl
  | cons x rest =>
    have hpages : (m.arena arena).pages = x := by
      rw [h.head, hring]
      rfl
    have hx : x ≠ 0 := (h.aligned x (hring ▸ List.mem_cons_self)).1
    rw [hring] at hframe hout
    refine ⟨_, mergeList_ring hself hframe hout, ?_⟩
    simp [withPage, ArenaMemory.insertPage, ArenaMemory.initArenaPage, ArenaMemory.setPage,
      ArenaMemory.setPages, ArenaMemory.setArena, hpages, hx]
    rfl

/-- `add_page` puts a fresh page in the first place. No slot of it is in use, so the live objects
are those of before, and the pages of before are not touched. -/
theorem addPage {page : Nat} (h : ArenaOk m arena size live ring) (hzero : page ≠ 0)
    (haligned : page % arenaPageSize = 0) (hlt : page < 2 ^ 64) (hfresh : page ∉ m.given) :
    ∃ m', m.addPage arena page = .ok m' ∧ ArenaOk m' arena size live (page :: ring) ∧
      (m'.page page).count = 0 ∧ (∀ q ∈ ring, m'.page q = m.page q) ∧
      m'.given = page :: m.given := by
  have hout : page ∉ ring := fun hmem => hfresh (h.given page hmem)
  obtain ⟨k, hk, heq⟩ := h.addPage_eq hzero haligned hout
  have harena : (withPage m arena page k).arena arena =
      { m.arena arena with pages := page, numPages := (m.arena arena).numPages + 1 } :=
    Function.update_self ..
  have hself : (withPage m arena page k).page page = ⟨arena, fun _ => 0, 0⟩ :=
    Function.update_self ..
  -- The pages of the ring are other pages, so their headers are as before.
  have hother : ∀ q ∈ ring, (withPage m arena page k).page q = m.page q := fun q hq =>
    Function.update_of_ne (fun hqp => hout (by rwa [← hqp])) ..
  refine ⟨_, heq, ?_, by rw [hself], hother, rfl⟩
  constructor
  case objectSize =>
    rw [harena]
    exact h.objectSize
  case maxCount =>
    rw [harena]
    exact h.maxCount
  case min_size => exact h.min_size
  case max_size => exact h.max_size
  case head =>
    rw [harena]
    rfl
  case linked => exact hk
  case given =>
    intro q hq
    rcases List.mem_cons.mp hq with rfl | hq
    · exact List.mem_cons_self
    · exact List.mem_cons_of_mem _ (h.given q hq)
  case aligned =>
    intro q hq
    rcases List.mem_cons.mp hq with rfl | hq
    · exact ⟨hzero, haligned, hlt⟩
    · exact h.aligned q hq
  case owner =>
    intro q hq
    rcases List.mem_cons.mp hq with rfl | hq
    · rw [hself]
    · rw [hother q hq]
      exact h.owner q hq
  case count =>
    intro q hq
    rcases List.mem_cons.mp hq with rfl | hq
    · rw [hself, usedSlots_empty]
    · rw [hother q hq, harena]
      exact h.count q hq
  case numPages => rw [harena, List.length_cons, ← h.numPages]
  case numObjects =>
    have hmap : ring.map (fun q => ((withPage m arena page k).page q).count) =
        ring.map fun q => (m.page q).count :=
      List.map_congr_left fun q hq => by rw [hother q hq]
    rw [harena, List.map_cons, List.sum_cons, hself, hmap, ← h.numObjects]
    simp
  case nodup => exact h.nodup
  case length =>
    rw [harena]
    exact h.length
  case live_iff =>
    intro o
    rw [h.live_iff, harena]
    simp only [ArenaMemory.slot, harena]
    constructor
    · intro ho
      obtain ⟨q, hq, i, hi, hset, rfl⟩ := ho
      refine ⟨q, List.mem_cons_of_mem _ hq, i, hi, ?_, rfl⟩
      rw [hother q hq]
      exact hset
    · intro ho
      obtain ⟨q, hq, i, hi, hset, rfl⟩ := ho
      rcases List.mem_cons.mp hq with rfl | hq
      · rw [hself, bitmapGet_empty] at hset
        cases hset
      · rw [hother q hq] at hset
        exact ⟨q, hq, i, hi, hset, rfl⟩

/-- The first page is turned out of its place when it is full: the head of the ring moves on to the
next page, so that the full one comes last. -/
theorem turnFull (h : ArenaOk m arena size live (p :: ring)) :
    ∃ ring', ArenaOk (m.turnFull arena p) arena size live ring' ∧
      (ring' = p :: ring ∧ (m.page p).count < (m.arena arena).maxCount ∨
        ring' = ring ++ [p] ∧ (m.arena arena).maxCount ≤ (m.page p).count) := by
  unfold ArenaMemory.turnFull
  split
  · next hfull =>
    refine ⟨ring ++ [p], h.relink (List.perm_append_singleton p ring) h.linked.tail ?_,
      .inr ⟨rfl, hfull⟩⟩
    rw [h.linked.next_head]
    rfl
  · next hroom => exact ⟨_, h, .inl ⟨rfl, not_le.mp hroom⟩⟩

/-- The first half of `alloc_object`: the first page has a free slot. -/
theorem choosePage {page : Nat} (h : ArenaOk m arena size live ring) (hzero : page ≠ 0)
    (haligned : page % arenaPageSize = 0) (hlt : page < 2 ^ 64) (hfresh : page ∉ m.given) :
    ∃ m' q rest, m.choosePage arena page = .ok m' ∧ ArenaOk m' arena size live (q :: rest) ∧
      (m'.page q).count < (m'.arena arena).maxCount ∧ (∀ r ∈ rest, m'.page r = m.page r) ∧
      (m.NeedsPage arena ∧ rest = ring ∧ m'.given = page :: m.given ∨
        ¬ m.NeedsPage arena ∧ q :: rest = ring ∧ m'.given = m.given) := by
  unfold ArenaMemory.choosePage
  split
  · next hneeds =>
    obtain ⟨m', hadd, h', hcount, hpages, hgiven⟩ := h.addPage hzero haligned hlt hfresh
    refine ⟨m', page, ring, hadd, h', ?_, hpages, .inl ⟨hneeds, rfl, hgiven⟩⟩
    rw [hcount]
    exact h'.maxCount_pos
  · next hneeds =>
    cases ring with
    | nil => exact absurd (.inl (h.pages_eq_zero.mpr rfl)) hneeds
    | cons q rest =>
      refine ⟨m, q, rest, rfl, h, ?_, fun _ _ => rfl, .inr ⟨hneeds, rfl, rfl⟩⟩
      have hpages : (m.arena arena).pages = q := h.head
      rw [ArenaMemory.NeedsPage, hpages] at hneeds
      omega

/-- The second half of `alloc_object`: a slot of the first page is taken. -/
theorem allocFromFirst (h : ArenaOk m arena size live (p :: ring))
    (hcount : (m.page p).count < (m.arena arena).maxCount) :
    ∃ o m' ring', m.allocFromFirst arena = .ok (o, m') ∧ ArenaOk m' arena size (o :: live) ring' ∧
      (∀ q ∈ ring, m'.page q = m.page q) ∧ m'.given = m.given ∧
      (ring' = p :: ring ∧ (m'.page p).count < (m'.arena arena).maxCount ∨
        ring' = ring ++ [p] ∧ (m'.arena arena).maxCount ≤ (m'.page p).count) := by
  have hp : p ∈ p :: ring := List.mem_cons_self
  rw [h.count p hp] at hcount
  obtain ⟨index, hindex, hfind, hclear⟩ := exists_findSlot hcount
  obtain ⟨ring', hok, hring⟩ := (h.takeSlot hp hindex hclear).turnFull
  have hpages : (m.arena arena).pages = p := h.head
  refine ⟨_, _, ring', ?_, hok, ?_, ?_, ?_⟩
  · rw [ArenaMemory.allocFromFirst, hpages]
    simp only [h.given p hp, if_true, hfind]
  · intro q hq
    have hqp : q ≠ p := fun hqp => (List.nodup_cons.mp h.linked.nodup).1 (hqp ▸ hq)
    rw [ArenaMemory.turnFull_page]
    exact Function.update_of_ne hqp ..
  · rw [ArenaMemory.turnFull_given]
    rfl
  · rw [ArenaMemory.turnFull_page, ArenaMemory.turnFull_maxCount]
    exact hring

/-- `alloc_object` hands out an object that was not live. -/
theorem allocObject {page : Nat} (h : ArenaOk m arena size live ring) (hzero : page ≠ 0)
    (haligned : page % arenaPageSize = 0) (hlt : page < 2 ^ 64) (hfresh : page ∉ m.given) :
    ∃ o m' ring', m.allocObject arena page = .ok (o, m') ∧
      ArenaOk m' arena size (o :: live) ring' := by
  obtain ⟨m₁, p, rest, hchoose, h₁, hcount, -⟩ := h.choosePage hzero haligned hlt hfresh
  obtain ⟨o, m', ring', halloc, hok, -⟩ := h₁.allocFromFirst hcount
  refine ⟨o, m', ring', ?_, hok⟩
  rw [ArenaMemory.allocObject, hchoose, ok_bind, halloc]

/-- A page of the ring is moved to the first place: taken out, and put in again in front. -/
theorem movePageToHead (h : ArenaOk m arena size live ring) (hp : p ∈ ring) :
    ArenaOk (m.movePageToHead arena p) arena size live (p :: ring.erase p) := by
  unfold ArenaMemory.movePageToHead
  split
  · rename_i hne
    obtain ⟨l₁, l₂, rfl⟩ := List.append_of_mem hp
    cases l₁ with
    | nil => exact absurd h.head hne
    | cons x l₁ =>
      have hpages : (m.arena arena).pages = x := h.head
      have hx : x ≠ 0 := (h.aligned x (by simp)).1
      -- read from `p`, the ring loses its first node; read from `x` again, it gets one in front
      have hrot : m.list.Ring (p :: (l₂ ++ x :: l₁)) := h.linked.rotate
      have hdetach : (detachFromList m.list p).Ring (l₂ ++ x :: l₁) ∧
          (detachFromList m.list p).Ring [p] := by
        cases l₂ with
        | nil => exact detachFromList_ring hrot
        | cons y l₂ => exact detachFromList_ring hrot
      have hrest : (detachFromList m.list p).Ring (x :: l₁ ++ l₂) := hdetach.1.rotate
      have hout : p ∉ x :: l₁ ++ l₂ := by
        have := (List.nodup_cons.mp hrot.nodup).1
        grind
      have hmerge := mergeList_ring hdetach.2 hrest hout
      have herase : (x :: l₁ ++ p :: l₂).erase p = x :: l₁ ++ l₂ := by
        rw [List.erase_append_right _ fun hmem => hout (List.mem_append_left _ hmem),
          List.erase_cons_head]
      have hperm : (p :: (x :: l₁ ++ l₂)).Perm (x :: l₁ ++ p :: l₂) := List.perm_middle.symm
      have hok := h.relink hperm hmerge rfl
      have heq : ({ m with list := detachFromList m.list p }.insertPage arena p) =
          { m with list := mergeList (detachFromList m.list p) p x }.setPages arena p := by
        simp only [ArenaMemory.insertPage, hpages, ne_eq, hx, not_false_eq_true, if_true]
      rw [heq, herase]
      exact hok
  · next hhead =>
    cases ring with
    | nil => cases hp
    | cons x rest =>
      have hx : x = p := h.head.symm.trans (not_not.mp hhead)
      subst hx
      rwa [List.erase_cons_head]

/-- `free_object` of a live object moves its page to the first place. No assertion fails, because
the address of a live object is that of a slot whose bit is set. -/
theorem freeObject {o : Nat} (h : ArenaOk m arena size live ring) (ho : o ∈ live) :
    ∃ m', ∃ p ∈ ring, m.freeObject o = .ok m' ∧
      ArenaOk m' arena size (live.erase o) (p :: ring.erase p) ∧
      (∀ q ≠ p, m'.page q = m.page q) ∧ (m'.page p).count + 1 = (m.page p).count := by
  obtain ⟨p, hp, i, hi, hset, rfl⟩ := (h.live_iff o).mp ho
  obtain ⟨-, haligned, hlt⟩ := h.aligned p hp
  have hok := (h.clearSlot hp hi hset).movePageToHead hp
  have hused := usedSlots_clear hi hset
  rw [← h.count p hp] at hused
  refine ⟨_, p, hp, ?_, hok, ?_, ?_⟩
  rotate_left
  · intro q hq
    rw [ArenaMemory.movePageToHead_page]
    exact Function.update_of_ne hq ..
  · rw [ArenaMemory.movePageToHead_page]
    show ((m.setPage p { m.page p with
      used := bitmapClear (m.page p).used i, count := (m.page p).count - 1 }).page p).count + 1 = _
    simp only [ArenaMemory.setPage, Function.update_self]
    omega
  have hcap := hi
  rw [h.maxCount] at hcap
  have hpage : ArenaMemory.getContainerPage (m.slot arena p i) = p := by
    rw [ArenaMemory.slot, h.objectSize]
    exact getContainerPage_slot haligned h.size_pos hcap
  have hoffset : (m.slot arena p i + 2 ^ 64 - (p + sizeofArenaPage)) % 2 ^ 64 = i * size := by
    have hend := slot_end_le hcap
    have hsmall : i * size < 2 ^ 64 := by
      unfold arenaPageCapacity arenaPageSize pageSize at hend
      omega
    rw [ArenaMemory.slot, h.objectSize]
    omega
  have hmod : i * size % size = 0 := Nat.mul_mod_left i size
  have hdiv : i * size / size = i := Nat.mul_div_cancel i h.size_pos
  simp only [ArenaMemory.freeObject, hpage, h.given p hp, if_true, h.owner p hp, h.objectSize,
    hoffset, hmod, hdiv, kasserts_of, hset, ok_bind]
  rfl

end ArenaOk

/-- The loop of `clear_arena` from `current` to the end of the ring. The induction is on the pages
that are left; the links are not written, so each page still knows the next one. -/
theorem clearFrom_eq {head current fuel : Nat} {rest : List Nat} {m : ArenaMemory}
    (hfuel : (current :: rest).length ≤ fuel)
    (hchain : List.IsChain m.list.Linked (current :: rest ++ [head])) (hhead : head ∉ rest)
    (hnodup : (current :: rest).Nodup) (hgiven : ∀ p ∈ current :: rest, p ∈ m.given) :
    ArenaMemory.clearFrom head fuel current m =
      .ok { m with
        given := m.given.diff (current :: rest), returned := m.returned ++ (current :: rest) } := by
  induction rest generalizing current fuel m with
  | nil =>
    obtain ⟨fuel, rfl⟩ : ∃ n, fuel = n + 1 := ⟨fuel - 1, by simp at hfuel; omega⟩
    obtain ⟨hnext, -⟩ : m.list.Linked current head := (List.isChain_cons_cons.mp hchain).1
    simp [ArenaMemory.clearFrom, ArenaMemory.freePage, hgiven, hnext, List.diff_cons]
  | cons y rest ih =>
    obtain ⟨fuel, rfl⟩ : ∃ n, fuel = n + 1 := ⟨fuel - 1, by simp at hfuel; omega⟩
    obtain ⟨⟨hnext, -⟩, hrest⟩ := List.isChain_cons_cons.mp hchain
    obtain ⟨hout, hnodup'⟩ := List.nodup_cons.mp hnodup
    have hy : y ≠ head := fun hy => hhead (hy ▸ List.mem_cons_self)
    have hfuel' : (y :: rest).length ≤ fuel := by simpa using hfuel
    have hlater := ih (m := { m with
        given := m.given.erase current, returned := m.returned ++ [current] }) hfuel' hrest
      (fun hmem => hhead (List.mem_cons_of_mem _ hmem)) hnodup' (by
        intro p hp
        have hpc : p ≠ current := fun hpc => hout (hpc ▸ hp)
        exact (List.mem_erase_of_ne hpc).mpr (hgiven p (List.mem_cons_of_mem _ hp)))
    simp only [ArenaMemory.clearFrom, ArenaMemory.freePage, hgiven current List.mem_cons_self,
      if_true, hnext, ok_bind, ne_eq, hy, not_false_eq_true, hlater]
    simp [List.diff_cons]

/-- `clear_arena` gives each page of the ring back once. It follows the `next` pointers from the
first page on until it is there again, and reads each pointer before it frees the page. The arena is
left without pages. -/
theorem ArenaOk.clearArena {m : ArenaMemory} {arena size fuel : Nat} {live ring : List Nat}
    (h : ArenaOk m arena size live ring) (hfuel : ring.length ≤ fuel) :
    ∃ m', m.clearArena fuel arena = .ok m' ∧ m'.returned = m.returned ++ ring ∧
      m'.given = m.given.diff ring ∧ (m'.arena arena).pages = 0 := by
  unfold ArenaMemory.clearArena
  cases ring with
  | nil =>
    have hpages : (m.arena arena).pages = 0 := h.head
    exact ⟨m, by simp [hpages], by simp, by simp, hpages⟩
  | cons p rest =>
    have hpages : (m.arena arena).pages = p := h.head
    have hp : p ≠ 0 := (h.aligned p List.mem_cons_self).1
    have hclear : ArenaMemory.clearFrom p fuel p m = .ok { m with
        given := m.given.diff (p :: rest), returned := m.returned ++ (p :: rest) } :=
      clearFrom_eq hfuel h.linked.2 (List.nodup_cons.mp h.linked.nodup).1 h.linked.nodup h.given
    simp only [hpages, ne_eq, hp, not_false_eq_true, if_true, hclear, ok_bind]
    exact ⟨_, rfl, rfl, rfl, by simp [ArenaMemory.setArena]⟩

/-! ## Whole runs

The page allocator is not modelled here: it returns pages that are aligned and not in use. -/

/-- A run of `alloc_object` and `free_object` on one arena, with the live objects. The page
allocator returns page-aligned pages that it has not handed out. -/
inductive ArenaRun (arena size : Nat) : ArenaMemory → List Nat → Prop
  | init {m₀ m : ArenaMemory} : m₀.initArena arena size = .ok m → ArenaRun arena size m []
  | alloc {m m' : ArenaMemory} {live : List Nat} {page o : Nat} : ArenaRun arena size m live →
    page ≠ 0 → page % arenaPageSize = 0 → page < 2 ^ 64 → page ∉ m.given →
    m.allocObject arena page = .ok (o, m') → ArenaRun arena size m' (o :: live)
  | free {m m' : ArenaMemory} {live : List Nat} {o : Nat} : ArenaRun arena size m live → o ∈ live →
    m.freeObject o = .ok m' → ArenaRun arena size m' (live.erase o)

/-- The invariant holds after `init_arena`, which returns for the sizes between its two bounds only:
there is no page and no object. -/
theorem ArenaOk.init {m₀ m : ArenaMemory} {arena size : Nat}
    (hinit : m₀.initArena arena size = .ok m) : ArenaOk m arena size [] [] := by
  obtain ⟨_, hmin, hinit⟩ := bind_eq_ok.mp hinit
  obtain ⟨_, hmax, hinit⟩ := bind_eq_ok.mp hinit
  have hmin := kasserts_eq_ok.mp hmin
  have hmax := kasserts_eq_ok.mp hmax
  cases hinit
  exact ⟨by simp [ArenaMemory.setArena], by simp [ArenaMemory.setArena], hmin, hmax,
    by simp [ArenaMemory.setArena], trivial, by simp, by simp, by simp, by simp,
    by simp [ArenaMemory.setArena], by simp [ArenaMemory.setArena], List.nodup_nil,
    by simp [ArenaMemory.setArena], by simp⟩

/-- The invariant holds along a run: the pages of the arena are a ring, each live object is a slot
in use of one of them, and the counts agree with the bitmaps. -/
theorem ArenaRun.arenaOk {m : ArenaMemory} {arena size : Nat} {live : List Nat}
    (h : ArenaRun arena size m live) : ∃ ring, ArenaOk m arena size live ring := by
  induction h with
  | init hinit => exact ⟨[], .init hinit⟩
  | alloc _ hzero haligned hlt hfresh halloc ih =>
    obtain ⟨ring, hok⟩ := ih
    obtain ⟨o, m', ring', heq, hok'⟩ := hok.allocObject hzero haligned hlt hfresh
    rw [halloc] at heq
    cases heq
    exact ⟨ring', hok'⟩
  | free _ ho hfree ih =>
    obtain ⟨ring, hok⟩ := ih
    obtain ⟨m', p, -, heq, hok', -⟩ := hok.freeObject ho
    rw [hfree] at heq
    cases heq
    exact ⟨_, hok'⟩

namespace ArenaOk

variable {m : ArenaMemory} {arena size : Nat} {live ring : List Nat}

/-- A live object lies in the data area of a page of the ring. Its page is the one that
`free_object` computes from the address, and the whole object lies behind the header and before the
end. -/
theorem live_page {o : Nat} (h : ArenaOk m arena size live ring) (ho : o ∈ live) :
    ∃ p ∈ ring, ArenaMemory.getContainerPage o = p ∧ p + sizeofArenaPage ≤ o ∧
      o + size ≤ p + arenaPageSize := by
  obtain ⟨p, hp, i, hi, -, rfl⟩ := (h.live_iff o).mp ho
  rw [h.maxCount] at hi
  have hend := slot_end_le hi
  refine ⟨p, hp, ?_, ?_, ?_⟩
  · rw [ArenaMemory.slot, h.objectSize]
    exact getContainerPage_slot (h.aligned p hp).2.1 h.size_pos hi
  · exact Nat.le_add_right _ _
  · rw [ArenaMemory.slot, h.objectSize]
    unfold arenaPageCapacity at hend
    have hheader : sizeofArenaPage ≤ arenaPageSize := by decide
    omega

/-- Live objects do not overlap. Two of one page are in different slots, and two of different pages
are in different pages. -/
theorem live_disjoint {o o' : Nat} (h : ArenaOk m arena size live ring) (ho : o ∈ live)
    (ho' : o' ∈ live) (hne : o ≠ o') : o + size ≤ o' ∨ o' + size ≤ o := by
  obtain ⟨p, hp, hpage, hlow, hhigh⟩ := h.live_page ho
  obtain ⟨q, hq, hpage', hlow', hhigh'⟩ := h.live_page ho'
  by_cases hpq : p = q
  · subst hpq
    obtain ⟨r, hr, i, hi, -, rfl⟩ := (h.live_iff o).mp ho
    obtain ⟨r', hr', j, hj, -, rfl⟩ := (h.live_iff o').mp ho'
    have hrp : r = p := by
      rw [ArenaMemory.slot, h.objectSize,
        getContainerPage_slot (h.aligned r hr).2.1 h.size_pos (h.maxCount ▸ hi)] at hpage
      exact hpage
    have hrp' : r' = p := by
      rw [ArenaMemory.slot, h.objectSize,
        getContainerPage_slot (h.aligned r' hr').2.1 h.size_pos (h.maxCount ▸ hj)] at hpage'
      exact hpage'
    subst hrp hrp'
    simp only [ArenaMemory.slot, h.objectSize] at hne ⊢
    rcases Nat.lt_trichotomy i j with hij | rfl | hij
    · have := Nat.mul_le_mul_right size hij
      rw [Nat.succ_mul] at this
      omega
    · exact absurd rfl hne
    · have := Nat.mul_le_mul_right size hij
      rw [Nat.succ_mul] at this
      omega
  · have hp' := (h.aligned p hp).2.1
    have hq' := (h.aligned q hq).2.1
    unfold arenaPageSize pageSize at *
    omega

end ArenaOk

/-- After any run: where the live objects are, what the counters count, that no call fails an
assertion, and that `clear_arena` gives each page back once. -/
theorem arenaRun_correct {m : ArenaMemory} {arena size : Nat} {live : List Nat}
    (h : ArenaRun arena size m live) :
    ∃ ring, m.list.Ring ring ∧ ring.Nodup ∧ (m.arena arena).pages = ring.head?.getD 0 ∧
      live.Nodup ∧
      (∀ o ∈ live, ∀ o' ∈ live, o ≠ o' → o + size ≤ o' ∨ o' + size ≤ o) ∧
      (∀ o ∈ live, ∃ p ∈ ring, ArenaMemory.getContainerPage o = p ∧ p + sizeofArenaPage ≤ o ∧
        o + size ≤ p + arenaPageSize) ∧
      (∀ p ∈ ring, (m.page p).count = usedSlots (m.page p).used (m.arena arena).maxCount) ∧
      (m.arena arena).numObjects = (ring.map fun p => (m.page p).count).sum ∧
      (m.arena arena).numObjects = live.length ∧
      (m.arena arena).numPages = ring.length ∧
      (∀ page, page ≠ 0 → page % arenaPageSize = 0 → page < 2 ^ 64 → page ∉ m.given →
        ∃ o m', m.allocObject arena page = .ok (o, m')) ∧
      (∀ o ∈ live, ∃ m', m.freeObject o = .ok m') ∧
      ∀ fuel ≥ ring.length, ∃ m', m.clearArena fuel arena = .ok m' ∧
        m'.returned = m.returned ++ ring ∧ m'.given = m.given.diff ring ∧
        (m'.arena arena).pages = 0 := by
  obtain ⟨ring, hok⟩ := h.arenaOk
  refine ⟨ring, hok.linked, hok.linked.nodup, hok.head, hok.nodup, ?_, ?_, hok.count,
    hok.numObjects, hok.length.symm, hok.numPages, ?_, ?_, ?_⟩
  · intro o ho o' ho' hne
    exact hok.live_disjoint ho ho' hne
  · intro o ho
    exact hok.live_page ho
  · intro page hzero haligned hlt hfresh
    obtain ⟨o, m', -, heq, -⟩ := hok.allocObject hzero haligned hlt hfresh
    exact ⟨o, m', heq⟩
  · intro o ho
    obtain ⟨m', -, -, heq, -⟩ := hok.freeObject ho
    exact ⟨m', heq⟩
  · intro fuel hfuel
    exact hok.clearArena hfuel

/-- Memory before any arena is initialized. -/
def blankMemory : ArenaMemory where
  page := fun _ => ⟨0, fun _ => 0, 0⟩
  list := ⟨id, id⟩
  arena := fun _ => ⟨0, 0, 0, 0, 0⟩
  given := []
  returned := []

/-- The first object of an arena with objects of 2000 bytes, two to a page. -/
def firstObject : Except Stop (Nat × ArenaMemory) := do
  let m ← blankMemory.initArena 8 2000
  m.allocObject 8 4096

/-- Another object, when the page allocator has the page `8192` to give. -/
def nextObject (x : Nat × ArenaMemory) : Except Stop (Nat × ArenaMemory) := x.2.allocObject 8 8192

theorem two_objects : ∃ m₀ m₁ m a b, blankMemory.initArena 8 2000 = .ok m₀ ∧ m₀.given = [] ∧
    m₀.allocObject 8 4096 = .ok (a, m₁) ∧ m₁.given = [4096] ∧
    m₁.allocObject 8 8192 = .ok (b, m) := by
  have hinit : (blankMemory.initArena 8 2000).map (fun m => m.given) = .ok [] := by
    decide
  have hfirst : firstObject.map (fun x => x.2.given) = .ok [4096] := by
    decide +kernel
  obtain ⟨⟨b, m⟩, hrun⟩ := exists_ok
    (by decide +kernel : (firstObject >>= nextObject).isOk = true)
  obtain ⟨⟨a, m₁⟩, ha, hb⟩ := bind_eq_ok.mp hrun
  rw [ha] at hfirst
  obtain ⟨m₀, hm₀, ha⟩ := bind_eq_ok.mp ha
  rw [hm₀] at hinit
  exact ⟨m₀, m₁, m, a, b, hm₀, Except.ok.inj hinit, ha, Except.ok.inj hfirst, hb⟩

theorem arenaRun_correct_two : ∃ a b m, ArenaRun 8 2000 m [b, a] ∧ (m.arena 8).numObjects = 2 ∧
    (a ≠ b → a + 2000 ≤ b ∨ b + 2000 ≤ a) ∧
    ∃ p, ArenaMemory.getContainerPage b = p ∧ p + 64 ≤ b ∧ b + 2000 ≤ p + 4096 := by
  obtain ⟨m₀, m₁, m, a, b, hm₀, hgiven, ha, hgiven', hb⟩ := two_objects
  have hruns := ((ArenaRun.init hm₀).alloc (by decide) (by decide) (by decide)
    (by simp [hgiven]) ha).alloc (by decide) (by decide) (by decide)
    (by simp [hgiven']) hb
  obtain ⟨ring, -, -, -, -, hdisjoint, hpage, -, -, hcount, -⟩ := arenaRun_correct hruns
  refine ⟨a, b, m, hruns, hcount, fun hne => hdisjoint a (by simp) b (by simp) hne, ?_⟩
  obtain ⟨p, -, hp⟩ := hpage b (by simp)
  exact ⟨p, hp⟩

end KernelAarch64.Core
