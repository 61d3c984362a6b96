import KernelAarch64.Core.Arena
import Mathlib.Algebra.Order.BigOperators.Group.List

/-!
# How many pages an arena has (`core/arena.c`)

`alloc_object` looks at the first page only and takes a new page when that one is full. This is
enough, because the pages with a free slot come first in the ring: a page leaves the first place
when it becomes full, and goes there when it gets a free slot. So a new page is taken only when all
pages are full, and an arena never has more pages than its objects needed at some time.

The main result is `arenaPeak_grows_when_full`. The order of the ring is the invariant: the pages
with a free slot come first (`RoomFirst`), so that looking at the first page is enough to know
whether there is one. `PagesOk` adds it to the invariant of `Core.Arena`, and bounds the number of
pages by the largest number of objects that there ever was.
-/

namespace KernelAarch64.Core

open KernelAarch64.Common KernelAarch64.Lib

/-- A run of `alloc_object` and `free_object`, as in `ArenaRun`, with the largest number of live
objects so far. -/
inductive ArenaPeak (arena size : Nat) : ArenaMemory → List Nat → Nat → Prop
  | init {m₀ m : ArenaMemory} : m₀.initArena arena size = .ok m → ArenaPeak arena size m [] 0
  | alloc {m m' : ArenaMemory} {live : List Nat} {peak page o : Nat} :
    ArenaPeak arena size m live peak → page ≠ 0 → page % arenaPageSize = 0 → page < 2 ^ 64 →
    page ∉ m.given → m.allocObject arena page = .ok (o, m') →
    ArenaPeak arena size m' (o :: live) (max peak (live.length + 1))
  | free {m m' : ArenaMemory} {live : List Nat} {peak o : Nat} : ArenaPeak arena size m live peak →
    o ∈ live → m.freeObject o = .ok m' → ArenaPeak arena size m' (live.erase o) peak

theorem ArenaPeak.run {m : ArenaMemory} {arena size peak : Nat} {live : List Nat}
    (h : ArenaPeak arena size m live peak) : ArenaRun arena size m live := by
  induction h with
  | init hinit => exact .init hinit
  | alloc _ hzero haligned hlt hfresh halloc ih => exact .alloc ih hzero haligned hlt hfresh halloc
  | free _ ho hfree ih => exact .free ih ho hfree

/-! ## Pages with a free slot come first -/

/-- A page with a free slot has none without before it. -/
def RoomFirst (m : ArenaMemory) (maxCount : Nat) (ring : List Nat) : Prop :=
  ring.Pairwise fun p q => (m.page q).count < maxCount → (m.page p).count < maxCount

namespace RoomFirst

variable {m m' : ArenaMemory} {maxCount p : Nat} {ring : List Nat}

theorem congr (h : RoomFirst m maxCount ring) (hpage : ∀ q ∈ ring, m'.page q = m.page q) :
    RoomFirst m' maxCount ring := by
  refine List.Pairwise.imp_of_mem ?_ h
  intro p q hp hq hroom
  rwa [hpage p hp, hpage q hq]

/-- A page with room may come first. -/
theorem cons (h : RoomFirst m maxCount ring) (hp : (m.page p).count < maxCount) :
    RoomFirst m maxCount (p :: ring) :=
  List.pairwise_cons.mpr ⟨fun _ _ _ => hp, h⟩

theorem concat (h : RoomFirst m maxCount ring) (hp : maxCount ≤ (m.page p).count) :
    RoomFirst m maxCount (ring ++ [p]) := by
  refine List.pairwise_append.mpr ⟨h, List.pairwise_singleton _ _, ?_⟩
  intro q _ r hr hroom
  rw [List.mem_singleton.mp hr] at hroom
  exact absurd hroom (not_lt.mpr hp)

/-- When the first page is full, all are. So an arena takes a new page only if no old one has room.
-/
theorem full (h : RoomFirst m maxCount ring) (hhead : ∀ p ∈ ring.head?, maxCount ≤ (m.page p).count) :
    ∀ p ∈ ring, maxCount ≤ (m.page p).count := by
  cases ring with
  | nil => simp
  | cons p ring =>
    have hp := hhead p rfl
    intro q hq
    rcases List.mem_cons.mp hq with rfl | hq
    · exact hp
    · by_contra hroom
      exact absurd ((List.pairwise_cons.mp h).1 q hq (not_le.mp hroom)) (not_lt.mpr hp)

/-- The ring is cut where the full pages begin: the pages with room come first, and behind the first
full page every page is full. -/
theorem split (h : RoomFirst m maxCount ring) : ∃ front back, ring = front ++ back ∧
    (∀ p ∈ front, (m.page p).count < maxCount) ∧ ∀ p ∈ back, maxCount ≤ (m.page p).count := by
  induction ring with
  | nil => exact ⟨[], [], rfl, by simp, by simp⟩
  | cons p ring ih =>
    by_cases hp : (m.page p).count < maxCount
    · obtain ⟨front, back, rfl, hfront, hback⟩ := ih (List.pairwise_cons.mp h).2
      refine ⟨p :: front, back, rfl, ?_, hback⟩
      intro q hq
      rcases List.mem_cons.mp hq with rfl | hq
      · exact hp
      · exact hfront q hq
    · refine ⟨[], p :: ring, rfl, by simp, h.full ?_⟩
      intro q hq
      cases hq
      exact not_lt.mp hp

end RoomFirst

/-! ## The invariant

A page that becomes full is turned to the end, and a page that gets room is moved to the front. -/

/-- No more slots are in use than there are. -/
theorem usedSlots_le (used : Nat → BitmapCell) (n : Nat) : usedSlots used n ≤ n := by
  have hle := List.countP_le_length (p := fun i => bitmapGet used i) (l := List.range n)
  rwa [List.length_range] at hle

/-- A page has a free slot when fewer slots are in use than it has. -/
theorem usedSlots_lt_iff {used : Nat → BitmapCell} {n : Nat} :
    usedSlots used n < n ↔ ∃ i < n, bitmapGet used i = false := by
  constructor
  · intro h
    obtain ⟨i, hi, -, hclear⟩ := exists_findSlot h
    exact ⟨i, hi, hclear⟩
  · rintro ⟨i, hi, hclear⟩
    have hset := usedSlots_set hi hclear
    have hle := usedSlots_le (bitmapSet used i) n
    omega

/-- The arena with its ring, and how many pages it has taken. The pages with a free slot come first
in the ring, and there are no more pages than the largest number of live objects so far needs. -/
structure PagesOk (m : ArenaMemory) (arena size : Nat) (live ring : List Nat) (peak : Nat) :
    Prop where
  ok : ArenaOk m arena size live ring
  front : RoomFirst m (arenaPageCapacity / size) ring
  pages : ring.length * (arenaPageCapacity / size) < peak + arenaPageCapacity / size

namespace PagesOk

variable {m m' : ArenaMemory} {arena size peak page o : Nat} {live ring : List Nat}

/-- `alloc_object` asks for a page exactly when all pages are full. It looks at the first page only,
and if any page has a free slot then the first one has. -/
theorem needsPage_iff (h : PagesOk m arena size live ring peak) :
    m.NeedsPage arena ↔ ∀ p ∈ ring, arenaPageCapacity / size ≤ (m.page p).count := by
  rw [ArenaMemory.NeedsPage, h.ok.pages_eq_zero, h.ok.maxCount]
  cases hring : ring with
  | nil => simp
  | cons p rest =>
    have hpages : (m.arena arena).pages = p := by
      rw [h.ok.head, hring]
      rfl
    rw [hpages]
    constructor
    · rintro (hnil | hfull)
      · cases hnil
      · rw [← hring]
        apply h.front.full
        intro q hq
        rw [hring] at hq
        cases hq
        exact hfull
    · intro hfull
      exact .inr (hfull p List.mem_cons_self)

/-- In an arena without a free slot, the pages hold as many objects as they can. -/
theorem length_mul_le (h : PagesOk m arena size live ring peak)
    (hfull : ∀ p ∈ ring, arenaPageCapacity / size ≤ (m.page p).count) :
    ring.length * (arenaPageCapacity / size) ≤ live.length := by
  rw [h.ok.length, h.ok.numObjects]
  have hsum := List.card_nsmul_le_sum (ring.map fun p => (m.page p).count) (arenaPageCapacity / size)
    (by simpa using hfull)
  simpa using hsum

/-- `alloc_object` in an arena with this order. If the page becomes full it goes to the end of the
ring, so the order is kept; if a page is asked for, all were full and the peak has gone up. -/
theorem alloc (h : PagesOk m arena size live ring peak) (hzero : page ≠ 0)
    (haligned : page % arenaPageSize = 0) (hlt : page < 2 ^ 64) (hfresh : page ∉ m.given) :
    ∃ o m' ring', m.allocObject arena page = .ok (o, m') ∧
      PagesOk m' arena size (o :: live) ring' (max peak (live.length + 1)) ∧
      (m.NeedsPage arena ∧ m'.given = page :: m.given ∨
        ¬ m.NeedsPage arena ∧ m'.given = m.given) := by
  obtain ⟨m₁, p, rest, hchoose, h₁, hcount, hpage₁, hcases⟩ :=
    h.ok.choosePage hzero haligned hlt hfresh
  obtain ⟨o, m', ring', halloc, hok, hpage, hgiven, hring⟩ := h₁.allocFromFirst hcount
  rw [hok.maxCount] at hring
  have hrest : RoomFirst m (arenaPageCapacity / size) rest := by
    rcases hcases with ⟨-, rfl, -⟩ | ⟨-, rfl, -⟩
    · exact h.front
    · exact (List.pairwise_cons.mp h.front).2
  have hrest' : RoomFirst m' (arenaPageCapacity / size) rest :=
    hrest.congr fun q hq => (hpage q hq).trans (hpage₁ q hq)
  have hlength : ring'.length = rest.length + 1 := by
    rcases hring with ⟨rfl, -⟩ | ⟨rfl, -⟩ <;> simp
  refine ⟨o, m', ring', ?_, ⟨hok, ?_, ?_⟩, ?_⟩
  · rw [ArenaMemory.allocObject, hchoose, ok_bind, halloc]
  · rcases hring with ⟨rfl, hroom⟩ | ⟨rfl, hfull⟩
    · exact hrest'.cons hroom
    · exact hrest'.concat hfull
  · rw [hlength, Nat.succ_mul]
    rcases hcases with ⟨hneeds, rfl, -⟩ | ⟨-, rfl, -⟩
    · -- all pages are full, and the new object is one more than they hold
      have hle := h.length_mul_le (h.needsPage_iff.mp hneeds)
      omega
    · have hpages := h.pages
      rw [List.length_cons, Nat.succ_mul] at hpages
      omega
  · rw [hgiven]
    rcases hcases with ⟨hneeds, -, hgiven₁⟩ | ⟨hneeds, -, hgiven₁⟩
    · exact .inl ⟨hneeds, hgiven₁⟩
    · exact .inr ⟨hneeds, hgiven₁⟩

/-- `free_object` in an arena with this order keeps it. The page of the object has room now and goes
to the front, so that the full pages still come last. -/
theorem free (h : PagesOk m arena size live ring peak) (ho : o ∈ live) :
    ∃ m' ring', m.freeObject o = .ok m' ∧ PagesOk m' arena size (live.erase o) ring' peak := by
  obtain ⟨m', p, hp, hfree, hok, hpage, hcount⟩ := h.ok.freeObject ho
  have hrest : RoomFirst m' (arenaPageCapacity / size) (ring.erase p) := by
    refine RoomFirst.congr (List.Pairwise.sublist List.erase_sublist h.front) ?_
    intro q hq
    exact hpage q (h.ok.linked.nodup.mem_erase_iff.mp hq).1
  refine ⟨m', p :: ring.erase p, hfree, hok, hrest.cons ?_, ?_⟩
  · have hle : (m.page p).count ≤ arenaPageCapacity / size := by
      rw [h.ok.count p hp, ← h.ok.maxCount]
      exact usedSlots_le _ _
    omega
  · have hpos : 0 < ring.length := List.length_pos_of_mem hp
    rw [List.length_cons, List.length_erase_of_mem hp, Nat.sub_add_cancel hpos]
    exact h.pages

end PagesOk

/-- The invariant holds along a run. `peak` is the largest number of live objects so far, and the
ring changes with each call. -/
theorem ArenaPeak.pagesOk {m : ArenaMemory} {arena size peak : Nat} {live : List Nat}
    (h : ArenaPeak arena size m live peak) : ∃ ring, PagesOk m arena size live ring peak := by
  induction h with
  | init hinit =>
    have hok := ArenaOk.init hinit
    refine ⟨[], hok, .nil, ?_⟩
    have hpos := hok.maxCount_pos
    rw [hok.maxCount] at hpos
    simpa using hpos
  | alloc _ hzero haligned hlt hfresh halloc ih =>
    obtain ⟨ring, hok⟩ := ih
    obtain ⟨o, m', ring', heq, hok', -⟩ := hok.alloc hzero haligned hlt hfresh
    rw [halloc] at heq
    cases heq
    exact ⟨ring', hok'⟩
  | free _ ho hfree ih =>
    obtain ⟨ring, hok⟩ := ih
    obtain ⟨m', ring', heq, hok'⟩ := hok.free ho
    rw [hfree] at heq
    cases heq
    exact ⟨ring', hok'⟩

/-- A page of the arena with a free slot. -/
def HasFreeSlot (m : ArenaMemory) (arena p : Nat) : Prop :=
  ∃ i < (m.arena arena).maxCount, bitmapGet (m.page p).used i = false

/-- A page has a free slot exactly when it is not full. -/
theorem ArenaOk.hasFreeSlot_iff {m : ArenaMemory} {arena size p : Nat} {live ring : List Nat}
    (h : ArenaOk m arena size live ring) (hp : p ∈ ring) :
    HasFreeSlot m arena p ↔ (m.page p).count < arenaPageCapacity / size := by
  rw [h.count p hp, ← h.maxCount]
  exact usedSlots_lt_iff.symm

/-- **The arena grows only when it is full.** After any run, the pages with a free slot come first
in the ring; the next `alloc_object` takes a new page exactly when no page has a free slot; and
there are no more pages than the largest number of live objects so far needs. -/
theorem arenaPeak_grows_when_full {m : ArenaMemory} {arena size peak : Nat} {live : List Nat}
    (h : ArenaPeak arena size m live peak) :
    ∃ ring, m.list.Ring ring ∧ (m.arena arena).pages = ring.head?.getD 0 ∧
      (m.arena arena).numPages = ring.length ∧
      (∃ front back, ring = front ++ back ∧ (∀ p ∈ front, HasFreeSlot m arena p) ∧
        ∀ p ∈ back, ¬ HasFreeSlot m arena p) ∧
      (∀ page, page ≠ 0 → page % arenaPageSize = 0 → page < 2 ^ 64 → page ∉ m.given →
        ∃ o m', m.allocObject arena page = .ok (o, m') ∧
          ((∀ p ∈ ring, ¬ HasFreeSlot m arena p) → m'.given = page :: m.given) ∧
          ((∃ p ∈ ring, HasFreeSlot m arena p) → m'.given = m.given)) ∧
      (m.arena arena).numPages ≤
        (peak + (m.arena arena).maxCount - 1) / (m.arena arena).maxCount := by
  obtain ⟨ring, hok⟩ := h.pagesOk
  have hfree : ∀ p ∈ ring, HasFreeSlot m arena p ↔ (m.page p).count < arenaPageCapacity / size :=
    fun p hp => hok.ok.hasFreeSlot_iff hp
  refine ⟨ring, hok.ok.linked, hok.ok.head, hok.ok.numPages, ?_, ?_, ?_⟩
  · obtain ⟨front, back, rfl, hfront, hback⟩ := hok.front.split
    refine ⟨front, back, rfl, ?_, ?_⟩
    · intro p hp
      exact (hfree p (List.mem_append_left _ hp)).mpr (hfront p hp)
    · intro p hp hroom
      exact absurd ((hfree p (List.mem_append_right _ hp)).mp hroom) (not_lt.mpr (hback p hp))
  · intro page hzero haligned hlt hfresh
    obtain ⟨o, m', -, halloc, -, hcases⟩ := hok.alloc hzero haligned hlt hfresh
    refine ⟨o, m', halloc, ?_, ?_⟩
    · intro hfull
      have hneeds : m.NeedsPage arena := by
        rw [hok.needsPage_iff]
        intro p hp
        exact not_lt.mp fun hroom => hfull p hp ((hfree p hp).mpr hroom)
      rcases hcases with ⟨-, hgiven⟩ | ⟨hnot, -⟩
      · exact hgiven
      · exact absurd hneeds hnot
    · rintro ⟨p, hp, hroom⟩
      rcases hcases with ⟨hneeds, -⟩ | ⟨-, hgiven⟩
      · exact absurd ((hfree p hp).mp hroom) (not_lt.mpr (hok.needsPage_iff.mp hneeds p hp))
      · exact hgiven
  · have hpages := hok.pages
    have hpos := hok.ok.maxCount_pos
    rw [← hok.ok.maxCount, ← hok.ok.numPages] at hpages
    rw [Nat.le_div_iff_mul_le hpos]
    omega

/-- Two objects of 2000 bytes are on one page. -/
theorem arenaPeak_grows_when_full_two : ∃ a b m, ArenaPeak 8 2000 m [b, a] 2 ∧
    (m.arena 8).numPages ≤ (2 + (m.arena 8).maxCount - 1) / (m.arena 8).maxCount := by
  obtain ⟨m₀, m₁, m, a, b, hm₀, hgiven, ha, hgiven', hb⟩ := two_objects
  have hruns : ArenaPeak 8 2000 m [b, a] 2 := ((ArenaPeak.init hm₀).alloc (by decide) (by decide)
    (by decide) (by simp [hgiven]) ha).alloc (by decide) (by decide) (by decide)
    (by simp [hgiven']) hb
  obtain ⟨ring, -, -, -, -, -, hpages⟩ := arenaPeak_grows_when_full hruns
  exact ⟨a, b, m, hruns, hpages⟩

end KernelAarch64.Core
