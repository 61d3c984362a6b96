import Mathlib.Data.Finset.Card
import Mathlib.Data.Finset.Image
import Mathlib.Algebra.Notation.Defs

/-!
# Slots that own resources

A container has `n` slots, each of them empty (`0`) or holding a resource that no other slot holds.
`Slots n f base used` says this of the slots `f`, where `used` are all resources in use and `base`
those in use by somebody else. Filling an empty slot with a resource that is not in use and giving
back the resource of a slot keep it, and a container with an empty slot never exhausts a pool that
has `n` resources to spare.

`Owners` says it of many containers at once, which own nothing in common and nothing of what they
share. To each of them, the resources of the rest are those of somebody else (`others`).

`fill` and `drop` are the operations, and `exists_free` is what is needed to allocate. `Owners` is
the same for a family of containers; `Owners.slots` takes one of them out, with the others as a part
of what is not its own, so that an operation on one container can be used for the family.
-/

namespace KernelAarch64.Lib

variable {α : Type*} [Zero α]

/-- The slots `f 0, …, f (n - 1)` hold resources of their own: no two the same, none that is in
`base`, and `used` is exactly what `base` and the slots hold. A slot with 0 is empty. -/
structure Slots (n : Nat) (f : Nat → α) (base used : Finset α) : Prop where
  mem_used : ∀ x, x ∈ used ↔ x ∈ base ∨ x ≠ 0 ∧ ∃ k < n, f k = x
  apart : ∀ k < n, f k ≠ 0 → f k ∉ base
  inj : ∀ i < n, ∀ j < n, f i ≠ 0 → f i = f j → i = j

namespace Slots

variable {n k : Nat} {f g : Nat → α} {base used pool : Finset α} {b : α}

theorem mem (h : Slots n f base used) (hk : k < n) (hf : f k ≠ 0) : f k ∈ used :=
  (h.mem_used _).mpr (.inr ⟨hf, k, hk, rfl⟩)

/-- Only the slots matter, not how they are given: two functions that agree on them own the same. -/
theorem congr (h : Slots n f base used) (hfg : ∀ k < n, g k = f k) : Slots n g base used := by
  constructor
  · intro x
    rw [h.mem_used]
    constructor
    · rintro (hx | ⟨hx, k, hk, hf⟩)
      · exact .inl hx
      · exact .inr ⟨hx, k, hk, (hfg k hk).trans hf⟩
    · rintro (hx | ⟨hx, k, hk, hg⟩)
      · exact .inl hx
      · exact .inr ⟨hx, k, hk, (hfg k hk).symm.trans hg⟩
  · intro k hk hg
    rw [hfg k hk] at hg ⊢
    exact h.apart k hk hg
  · intro i hi j hj hg hij
    rw [hfg i hi] at hg hij
    rw [hfg j hj] at hij
    exact h.inj i hi j hj hg hij

/-- Slots under other numbers, among more that are empty. `place` says where a slot has gone; every
slot that is not hit holds nothing. -/
theorem embed {m : Nat} (h : Slots m f base used) (place : Nat → Nat)
    (hplace : ∀ j < m, place j < n ∧ g (place j) = f j)
    (hempty : ∀ k < n, g k ≠ 0 → ∃ j < m, place j = k) : Slots n g base used := by
  constructor
  · intro x
    rw [h.mem_used]
    constructor
    · rintro (hx | ⟨hx, j, hj, rfl⟩)
      · exact .inl hx
      · exact .inr ⟨hx, place j, hplace j hj⟩
    · rintro (hx | ⟨hx, k, hk, rfl⟩)
      · exact .inl hx
      · obtain ⟨j, hj, rfl⟩ := hempty k hk hx
        exact .inr ⟨hx, j, hj, (hplace j hj).2.symm⟩
  · intro k hk hg
    obtain ⟨j, hj, rfl⟩ := hempty k hk hg
    rw [(hplace j hj).2] at hg ⊢
    exact h.apart j hj hg
  · intro i hi j hj hg hij
    obtain ⟨i, hi', rfl⟩ := hempty i hi hg
    obtain ⟨j, hj', rfl⟩ := hempty j hj (hij ▸ hg)
    rw [(hplace i hi').2] at hg hij
    rw [(hplace j hj').2] at hij
    rw [h.inj i hi' j hj' hg hij]

/-- Empty slots hold nothing. -/
theorem empty (hf : ∀ k < n, f k = 0) : Slots n f base base := by
  constructor
  · intro x
    constructor
    · exact .inl
    · rintro (hx | ⟨hx, k, hk, rfl⟩)
      · exact hx
      · exact absurd (hf k hk) hx
  · intro k hk h
    exact absurd (hf k hk) h
  · intro i hi j hj h
    exact absurd (hf i hi) h

/-- Empty slots leave the resources to the others. -/
theorem used_eq (h : Slots n f base used) (hf : ∀ k < n, f k = 0) : used = base := by
  ext x
  rw [h.mem_used]
  constructor
  · rintro (hx | ⟨hx, k, hk, rfl⟩)
    · exact hx
    · exact absurd (hf k hk) hx
  · exact .inl

variable [DecidableEq α]

/-- An empty slot takes a resource that is not in use. It is apart from the other slots for that
reason, and `used` grows by it alone. -/
theorem fill (h : Slots n f base used) (hk : k < n) (hf : f k = 0) (hb : b ∉ used) (hb0 : b ≠ 0) :
    Slots n (Function.update f k b) base (insert b used) := by
  -- A resource that is not in use is in no slot.
  have hne : ∀ j < n, f j ≠ b := by
    rintro j hj rfl
    exact hb (h.mem hj hb0)
  constructor
  · intro x
    rw [Finset.mem_insert, h.mem_used]
    constructor
    · rintro (rfl | hx | ⟨hx, j, hj, rfl⟩)
      · exact .inr ⟨hb0, k, hk, Function.update_self ..⟩
      · exact .inl hx
      · have hjk : j ≠ k := by
          rintro rfl
          exact hx hf
        exact .inr ⟨hx, j, hj, Function.update_of_ne hjk ..⟩
    · rintro (hx | ⟨hx, j, hj, rfl⟩)
      · exact .inr (.inl hx)
      · by_cases hjk : j = k
        · subst hjk
          exact .inl (Function.update_self ..)
        · rw [Function.update_of_ne hjk] at hx ⊢
          exact .inr (.inr ⟨hx, j, hj, rfl⟩)
  · intro j hj hx
    by_cases hjk : j = k
    · subst hjk
      rw [Function.update_self]
      exact fun hbase => hb ((h.mem_used b).mpr (.inl hbase))
    · rw [Function.update_of_ne hjk] at hx ⊢
      exact h.apart j hj hx
  · intro i hi j hj hx hij
    by_cases hik : i = k
    · by_cases hjk : j = k
      · rw [hik, hjk]
      · rw [hik, Function.update_self, Function.update_of_ne hjk] at hij
        exact absurd hij.symm (hne j hj)
    · rw [Function.update_of_ne hik] at hx hij
      by_cases hjk : j = k
      · rw [hjk, Function.update_self] at hij
        exact absurd hij (hne i hi)
      · rw [Function.update_of_ne hjk] at hij
        exact h.inj i hi j hj hx hij

/-- A slot gives its resource back. No other slot holds it, so it is not in use any more; the rest
stays as it was. -/
theorem drop (h : Slots n f base used) (hk : k < n) (hf : f k ≠ 0) :
    Slots n (Function.update f k 0) base (used.erase (f k)) := by
  constructor
  · intro x
    rw [Finset.mem_erase, h.mem_used]
    constructor
    · rintro ⟨hxk, hx | ⟨hx, j, hj, rfl⟩⟩
      · exact .inl hx
      · have hjk : j ≠ k := by
          rintro rfl
          exact hxk rfl
        exact .inr ⟨hx, j, hj, Function.update_of_ne hjk ..⟩
    · rintro (hx | ⟨hx, j, hj, rfl⟩)
      · refine ⟨?_, .inl hx⟩
        rintro rfl
        exact h.apart k hk hf hx
      · have hjk : j ≠ k := by
          rintro rfl
          exact hx (Function.update_self ..)
        rw [Function.update_of_ne hjk] at hx ⊢
        exact ⟨fun heq => hjk (h.inj j hj k hk hx heq), .inr ⟨hx, j, hj, rfl⟩⟩
  · intro j hj hx
    have hjk : j ≠ k := by
      rintro rfl
      exact hx (Function.update_self ..)
    rw [Function.update_of_ne hjk] at hx ⊢
    exact h.apart j hj hx
  · intro i hi j hj hx hij
    have hik : i ≠ k := by
      rintro rfl
      exact hx (Function.update_self ..)
    rw [Function.update_of_ne hik] at hx hij
    have hjk : j ≠ k := by
      rintro rfl
      rw [Function.update_self] at hij
      exact hx hij
    rw [Function.update_of_ne hjk] at hij
    exact h.inj i hi j hj hx hij

/-- With an empty slot, a pool that has `n` resources to spare is not exhausted. -/
theorem exists_free (h : Slots n f base used) (hk : k < n) (hf : f k = 0)
    (hroom : n ≤ (pool \ base).card) : ¬ pool ⊆ used := by
  intro hsub
  have hslots : pool \ base ⊆ ((Finset.range n).erase k).image f := by
    intro x hx
    obtain ⟨hpool, hbase⟩ := Finset.mem_sdiff.mp hx
    rcases (h.mem_used x).mp (hsub hpool) with hx | ⟨hx, j, hj, rfl⟩
    · exact absurd hx hbase
    · refine Finset.mem_image_of_mem f (Finset.mem_erase.mpr ⟨?_, Finset.mem_range.mpr hj⟩)
      rintro rfl
      exact hx hf
  have hcard := (Finset.card_le_card hslots).trans Finset.card_image_le
  rw [Finset.card_erase_of_mem (Finset.mem_range.mpr hk), Finset.card_range] at hcard
  omega

end Slots

/-! ## Many containers

The resources of the others are, for one of the containers, like those that belong to nobody. -/

variable {ι : Type*} {n : Nat} {shared used : Finset α}

/-- The containers `f i` hold resources of their own; `shared` belongs to none of them. -/
structure Owners (n : Nat) (f : ι → Nat → α) (shared used : Finset α) : Prop where
  shared_subset : shared ⊆ used
  mem : ∀ i, ∀ k < n, f i k ≠ 0 → f i k ∈ used
  apart : ∀ i, ∀ k < n, f i k ≠ 0 → f i k ∉ shared
  inj : ∀ i j, ∀ k < n, ∀ l < n, f i k ≠ 0 → f i k = f j l → i = j ∧ k = l

/-- Only the slots matter, not how they are given, for every container of the family. -/
theorem Owners.congr {f g : ι → Nat → α} (h : Owners n f shared used)
    (hfg : ∀ i, ∀ k < n, g i k = f i k) :
    Owners n g shared used := by
  refine ⟨h.shared_subset, ?_, ?_, ?_⟩
  · intro i k hk hne
    rw [hfg i k hk] at hne ⊢
    exact h.mem i k hk hne
  · intro i k hk hne
    rw [hfg i k hk] at hne ⊢
    exact h.apart i k hk hne
  · intro i j k hk l hl hne heq
    rw [hfg i k hk] at hne heq
    rw [hfg j l hl] at heq
    exact h.inj i j k hk l hl hne heq

variable [DecidableEq α]

/-- What is in use and in no slot of the container `f`. -/
def others (n : Nat) (f : Nat → α) (used : Finset α) : Finset α :=
  used.filter fun x => x ≠ 0 → ∀ k < n, f k ≠ x

/-- The same for the resources of others. -/
theorem others_congr {f g : Nat → α} (h : ∀ k < n, g k = f k) : others n g used = others n f used := by
  unfold others
  congr 1
  funext x
  rw [eq_iff_iff]
  constructor
  · intro hx hx0 k hk
    rw [← h k hk]
    exact hx hx0 k hk
  · intro hx hx0 k hk
    rw [h k hk]
    exact hx hx0 k hk

namespace Owners

variable {f g : ι → Nat → α}

/-- One of the containers. For it the blocks of the others are like those that nobody may take. -/
theorem slots (h : Owners n f shared used) (i : ι) : Slots n (f i) (others n (f i) used) used := by
  constructor
  · intro x
    constructor
    · intro hx
      by_cases hslot : x ≠ 0 ∧ ∃ k < n, f i k = x
      · exact .inr hslot
      · refine .inl (Finset.mem_filter.mpr ⟨hx, ?_⟩)
        intro hx0 k hk heq
        exact hslot ⟨hx0, k, hk, heq⟩
    · intro hx
      rcases hx with hx | ⟨hx, k, hk, rfl⟩
      · exact (Finset.mem_filter.mp hx).1
      · exact h.mem i k hk hx
  · intro k hk hne hmem
    exact (Finset.mem_filter.mp hmem).2 hne k hk rfl
  · intro k hk l hl hne heq
    exact (h.inj i i k hk l hl hne heq).2

/-- What is shared belongs to the others. -/
theorem shared_others (h : Owners n f shared used) (i : ι) : shared ⊆ others n (f i) used := by
  intro x hx
  refine Finset.mem_filter.mpr ⟨h.shared_subset hx, ?_⟩
  rintro hx0 k hk rfl
  exact h.apart i k hk hx0 hx

/-- What is in a slot of another container belongs to the others. -/
theorem mem_others (h : Owners n f shared used) {i j : ι} (hij : j ≠ i) {k : Nat} (hk : k < n)
    (hne : f j k ≠ 0) : f j k ∈ others n (f i) used := by
  refine Finset.mem_filter.mpr ⟨h.mem j k hk hne, ?_⟩
  intro _ l hl heq
  exact hij (h.inj j i k hk l hl hne heq.symm).1

/-- A container gives back everything it holds. What the others hold is apart from it, so exactly
its own resources leave `used`. -/
theorem drop (h : Owners n f shared used) (i : ι) (hi : ∀ k < n, g i k = 0)
    (hother : ∀ j ≠ i, ∀ k < n, g j k = f j k) : Owners n g shared (others n (f i) used) := by
  have hji : ∀ {j k}, k < n → g j k ≠ 0 → j ≠ i ∧ g j k = f j k := by
    intro j k hk hne
    have hj : j ≠ i := by
      rintro rfl
      exact hne (hi k hk)
    exact ⟨hj, hother j hj k hk⟩
  refine ⟨h.shared_others i, ?_, ?_, ?_⟩
  · intro j k hk hne
    obtain ⟨hj, heq⟩ := hji hk hne
    rw [heq] at hne ⊢
    exact h.mem_others hj hk hne
  · intro j k hk hne
    obtain ⟨hj, heq⟩ := hji hk hne
    rw [heq] at hne ⊢
    exact h.apart j k hk hne
  · intro j j' k hk l hl hne heq
    have hj := (hji hk hne).2
    have hj' := (hji hl (heq ▸ hne)).2
    rw [hj] at hne heq
    rw [hj'] at heq
    exact h.inj j j' k hk l hl hne heq

end Owners

end KernelAarch64.Lib
