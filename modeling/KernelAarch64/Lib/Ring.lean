import Mathlib.Data.List.Chain
import Mathlib.Data.List.Nodup

/-!
# Circular doubly linked lists

Two pointer fields, `next` and `prev`, over nodes of any type. `Links.Ring k l` says that the nodes
of `l`, in this order, are one circular list: each of them points to the one after it, the last one
to the first, and back. Where the list starts is a matter of the reader: a ring can be read from any
of its nodes (`Ring.rotate`).
-/

namespace KernelAarch64.Lib

/-- The pointers of all nodes. -/
structure Links (α : Type*) where
  next : α → α
  prev : α → α

namespace Links

variable {α : Type*}

/-- `y` comes right after `x`. -/
def Linked (k : Links α) (x y : α) : Prop := k.next x = y ∧ k.prev y = x

/-- The nodes of `l`, in this order, are one circular list. -/
def Ring (k : Links α) : List α → Prop
  | [] => True
  | a :: m => (a :: m).Nodup ∧ List.IsChain k.Linked (a :: m ++ [a])

variable {k k' : Links α} {a x y : α} {l m : List α}

/-- A chain looks only at the `next` of all but its last node and the `prev` of all but its
first. -/
theorem isChain_congr (h : List.IsChain k.Linked l) (hnext : ∀ x ∈ l.dropLast, k'.next x = k.next x)
    (hprev : ∀ y ∈ l.tail, k'.prev y = k.prev y) : List.IsChain k'.Linked l := by
  induction l with
  | nil => exact .nil
  | cons x l ih =>
    cases l with
    | nil => exact .singleton x
    | cons y l =>
      obtain ⟨hxy, hrest⟩ := List.isChain_cons_cons.mp h
      refine List.isChain_cons_cons.mpr ⟨⟨?_, ?_⟩, ih hrest ?_ ?_⟩
      · rw [hnext x (by simp), hxy.1]
      · rw [hprev y (by simp), hxy.2]
      · intro z hz
        exact hnext z (by simp [hz])
      · intro z hz
        exact hprev z (List.mem_of_mem_tail hz)

namespace Ring

theorem nodup (h : k.Ring l) : l.Nodup := by
  cases l with
  | nil => exact List.nodup_nil
  | cons a m => exact h.1

/-- Two neighbours, without the turn from the last node to the first. -/
theorem chain (h : k.Ring l) : List.IsChain k.Linked l := by
  cases l with
  | nil => exact .nil
  | cons a m => exact h.2.left_of_append

/-- The turn from the last node to the first. -/
theorem turn (h : k.Ring l) (hx : x ∈ l.getLast?) (ha : a ∈ l.head?) : k.Linked x a := by
  cases l with
  | nil => cases hx
  | cons b m =>
    obtain ⟨-, -, hturn⟩ := List.isChain_append.mp h.2
    have hab : b = a := by simpa using ha
    subst hab
    exact hturn x hx b rfl

/-- A list of neighbours with the turn back is a ring. -/
theorem of_chain (hnodup : l.Nodup) (hchain : List.IsChain k.Linked l)
    (hturn : ∀ x ∈ l.getLast?, ∀ a ∈ l.head?, k.Linked x a) : k.Ring l := by
  cases l with
  | nil => trivial
  | cons a m =>
    refine ⟨hnodup, hchain.append (.singleton a) ?_⟩
    intro x hx y hy
    cases hy
    exact hturn x hx a rfl

/-- The ring read from its second node: the same nodes in the same circle, with the first one at the
end. -/
theorem tail (h : k.Ring (a :: m)) : k.Ring (m ++ [a]) := by
  have hperm : (m ++ [a]).Nodup := (List.perm_append_singleton a m).nodup_iff.mpr h.1
  refine of_chain hperm ?_ ?_
  · exact h.2.tail
  · intro x hx b hb
    cases m with
    | nil =>
      cases hb
      cases hx
      exact h.turn rfl rfl
    | cons c m =>
      have hxa : a = x := by
        rw [List.getLast?_concat] at hx
        exact Option.some.inj hx
      have hbc : c = b := by simpa using hb
      subst hxa hbc
      exact (List.isChain_cons_cons.mp h.2).1

/-- The ring read from any of its nodes. -/
theorem rotate (h : k.Ring (l ++ m)) : k.Ring (m ++ l) := by
  induction l generalizing m with
  | nil => simpa using h
  | cons a l ih =>
    have hnext : k.Ring (l ++ (m ++ [a])) := by
      rw [← List.append_assoc]
      exact h.tail
    simpa using ih hnext

/-- What the first node points to. -/
theorem next_head (h : k.Ring (a :: m)) : (m ++ [a]).head? = some (k.next a) := by
  cases m with
  | nil =>
    have hturn : k.Linked a a := h.turn rfl rfl
    simp [hturn.1]
  | cons b m =>
    have hab : k.Linked a b := (List.isChain_cons_cons.mp h.2).1
    simp [hab.1]

/-- The ring read from a node in its middle. -/
theorem rotate_mid (h : k.Ring (a :: (l ++ x :: m))) : k.Ring (x :: (m ++ a :: l)) := by
  have hsplit : a :: (l ++ x :: m) = (a :: l) ++ x :: m := rfl
  rw [hsplit] at h
  exact h.rotate

/-- What a node in the middle points to. -/
theorem next_mid (h : k.Ring (a :: (l ++ x :: m))) : (m ++ [a]).head? = some (k.next x) := by
  have hnext := h.rotate_mid.next_head
  cases m with
  | nil => exact hnext
  | cons y m => exact hnext

theorem ne_head (h : k.Ring (a :: (l ++ x :: m))) : x ≠ a := by
  rintro rfl
  exact (List.nodup_cons.mp h.nodup).1 (by simp)

theorem prev_head (h : k.Ring (a :: m)) : (a :: m).getLast? = some (k.prev a) := by
  have hlast : (a :: m).getLast? = some ((a :: m).getLast (by simp)) := List.getLast?_eq_some_getLast _
  rw [hlast, (h.turn hlast rfl).2]

theorem next_mem (h : k.Ring (a :: m)) : k.next a ∈ a :: m := by
  have hmem := List.mem_of_mem_head? h.next_head
  simpa [or_comm] using hmem

theorem prev_mem (h : k.Ring (a :: m)) : k.prev a ∈ a :: m := List.mem_of_mem_getLast? h.prev_head

/-- The last node is there once. -/
theorem prev_head_notMem (h : k.Ring (a :: m)) : k.prev a ∉ (a :: m).dropLast := by
  intro hmem
  have hlast : (a :: m).getLast (by simp) = k.prev a := by
    have hprev := h.prev_head
    rw [List.getLast?_eq_some_getLast (by simp)] at hprev
    exact Option.some.inj hprev
  have hsplit := List.dropLast_concat_getLast (List.cons_ne_nil a m)
  rw [hlast] at hsplit
  have hnodup := h.nodup
  rw [← hsplit] at hnodup
  exact (List.nodup_append.mp hnodup).2.2 _ hmem _ (by simp) rfl

end Ring

end Links

end KernelAarch64.Lib
