import KernelAarch64.Lib.Radix
import Mathlib.Data.List.Nodup

/-!
# Visiting the entries at the bottom of a radix tree

`visit` goes through the tables depth first. It reads each entry when it comes to it, and calls
`leaf` on the entries at depth `n` that point anywhere. The calls may change the memory that is
still to be read. If each of them writes the entry it is called on and nothing else, then the walk
visits the entries that were there at the beginning: `visit_eq_foldlM`.

The walk reads the memory while it writes to it. In a tree this makes no difference:
`visit_eq_foldlM` says that it calls `leaf` for the list `leaves` of the entries that were there at
the beginning. Without a tree `visit_hom` still says that two walks go together when their calls do.
-/

namespace KernelAarch64.Lib.Radix

variable {P I E : Type*} {σ ε : Type}

/-- The entries at depth `n` below a table that point anywhere, depth first. -/
def leaves (next : E → Option P) (indices : List I) (m : P → I → E) : Nat → P → List (P × I)
  | 0, t => (indices.filter fun i => (next (m t i)).isSome).map fun i => (t, i)
  | n + 1, t => indices.flatMap fun i => (next (m t i)).elim [] (leaves next indices m n)

/-- The walk that calls `leaf` on the entries at depth `n`, in the order of the indices. It reads
the tables as they are at the time, since `leaf` may have written to them. -/
def visit (next : E → Option P) (indices : List I) (view : σ → P → I → E)
    (leaf : P × I → σ → Except ε σ) : Nat → P → σ → Except ε σ
  | 0, t, s => indices.foldlM
      (fun s i => if (next (view s t i)).isSome then leaf (t, i) s else .ok s) s
  | n + 1, t, s => indices.foldlM
      (fun s i => (next (view s t i)).elim (.ok s) fun u => visit next indices view leaf n u s) s

variable {next : E → Option P} {indices : List I} {m m' : P → I → E} {root t u : P} {n : Nat} {i : I}

/-- A table below the root is the root of a tree. -/
theorem Tree.child (htree : Tree next m t (n + 1)) (hu : next (m t i) = some u) :
    Tree next m u n := by
  have hcons : ∀ p, descend next m t (i :: p) = descend next m u p := by
    intro p
    rw [descend, hu]
    rfl
  intro p q v hp hq hdp hdq
  rw [← hcons] at hdp hdq
  have := htree (i :: p) (i :: q) v (Nat.succ_le_succ hp) (Nat.succ_le_succ hq) hdp hdq
  exact (List.cons.inj this).2

/-- A member of the list that an option gives. -/
theorem mem_elim_nil {α β : Type*} {o : Option α} {f : α → List β} {z : β} (hz : z ∈ o.elim [] f) :
    ∃ u, o = some u ∧ z ∈ f u := by
  cases o with
  | none => cases hz
  | some u => exact ⟨u, rfl, hz⟩

/-- The entries that are found at the ends of the paths of length `n`. By induction on the depth,
with the path taken from its first index. -/
theorem mem_leaves (hall : ∀ i, i ∈ indices) {z : P × I} :
    z ∈ leaves next indices m n t ↔
      ∃ p, p.length = n ∧ descend next m t p = some z.1 ∧ (next (m z.1 z.2)).isSome := by
  induction n generalizing t with
  | zero =>
    rw [leaves, List.mem_map]
    constructor
    · rintro ⟨i, hi, rfl⟩
      exact ⟨[], rfl, rfl, (List.mem_filter.mp hi).2⟩
    · rintro ⟨p, hp, hd, hsome⟩
      rw [List.length_eq_zero_iff] at hp
      subst hp
      cases hd
      exact ⟨z.2, List.mem_filter.mpr ⟨hall _, hsome⟩, rfl⟩
  | succ n ih =>
    rw [leaves, List.mem_flatMap]
    constructor
    · rintro ⟨i, -, hz⟩
      obtain ⟨u, hu, hz⟩ := mem_elim_nil hz
      obtain ⟨p, hp, hd, hsome⟩ := ih.mp hz
      refine ⟨i :: p, by rw [List.length_cons, hp], ?_, hsome⟩
      rw [descend, hu]
      exact hd
    · rintro ⟨p, hp, hd, hsome⟩
      cases p with
      | nil => cases hp
      | cons i p =>
        rw [descend, Option.bind_eq_some_iff] at hd
        obtain ⟨u, hu, hd⟩ := hd
        refine ⟨i, hall i, ?_⟩
        rw [hu]
        exact ih.mpr ⟨p, Nat.succ.inj hp, hd, hsome⟩

/-- The leaves depend only on the tables that are reached, so that writes elsewhere leave the list
as it is. -/
theorem leaves_congr (h : ∀ p u, p.length ≤ n → descend next m t p = some u → m' u = m u) :
    leaves next indices m' n t = leaves next indices m n t := by
  induction n generalizing t with
  | zero => rw [leaves, leaves, h [] t (Nat.le_refl 0) rfl]
  | succ n ih =>
    rw [leaves, leaves, h [] t (Nat.zero_le _) rfl]
    congr 1
    funext i
    cases hu : next (m t i) with
    | none => rfl
    | some u =>
      apply ih
      intro p v hp hd
      apply h (i :: p) v (Nat.succ_le_succ hp)
      rw [descend, hu]
      exact hd

/-- The entries below one entry of a table. -/
theorem mem_leaves_below (hall : ∀ i, i ∈ indices) {z : P × I}
    (hz : z ∈ (next (m t i)).elim [] (leaves next indices m n)) :
    ∃ p, p.length = n ∧ descend next m t (i :: p) = some z.1 := by
  obtain ⟨u, hu, hz⟩ := mem_elim_nil hz
  obtain ⟨p, hp, hd, -⟩ := (mem_leaves hall).mp hz
  refine ⟨p, hp, ?_⟩
  rw [descend, hu]
  exact hd

/-- In a tree no entry is found twice: entries of two different paths lie in two different tables,
and within one table the indices differ. -/
theorem nodup_leaves (hall : ∀ i, i ∈ indices) (hnodup : indices.Nodup)
    (htree : Tree next m t n) : (leaves next indices m n t).Nodup := by
  induction n generalizing t with
  | zero =>
    refine (hnodup.filter _).map ?_
    intro i j h
    exact (Prod.mk.inj h).2
  | succ n ih =>
    rw [leaves, List.nodup_flatMap]
    constructor
    · intro i _
      cases hu : next (m t i) with
      | none => exact List.nodup_nil
      | some u => exact ih (htree.child hu)
    · apply hnodup.imp
      intro i j hij z hi hj
      obtain ⟨p, hp, hdp⟩ := mem_leaves_below hall hi
      obtain ⟨q, hq, hdq⟩ := mem_leaves_below hall hj
      have hpath := htree (i :: p) (j :: q) z.1 (Nat.le_of_eq (congrArg Nat.succ hp))
        (Nat.le_of_eq (congrArg Nat.succ hq)) hdp hdq
      exact hij (List.cons.inj hpath).1

/-! ## Calls that clear the entries

Each call writes its own entry and nothing else, so the entries that are left are found as they
were. -/

section Clear

variable [DecidableEq P] [DecidableEq I] {view : σ → P → I → E} {leaf : P × I → σ → Except ε σ} {e : E}
  {s s' : σ}

/-- Calls on some entries write these entries and no others. By induction on the list of the
entries, with the view after each call as `hleaf` gives it. -/
theorem view_foldlM (hleaf : ∀ z s s', leaf z s = .ok s' → view s' = set (view s) z.1 z.2 e)
    {zs : List (P × I)} (h : zs.foldlM (fun s z => leaf z s) s = .ok s') (u : P) (j : I) :
    view s' u j = if (u, j) ∈ zs then e else view s u j := by
  induction zs generalizing s with
  | nil =>
    cases h
    rfl
  | cons z zs ih =>
    rw [List.foldlM_cons] at h
    cases hz : leaf z s with
    | error stop =>
      rw [hz] at h
      cases h
    | ok s₁ =>
      rw [hz] at h
      rw [ih h, hleaf z s s₁ hz]
      by_cases hmem : (u, j) ∈ zs
      · rw [if_pos hmem, if_pos (List.mem_cons_of_mem z hmem)]
      · rw [if_neg hmem]
        by_cases heq : u = z.1 ∧ j = z.2
        · obtain ⟨rfl, rfl⟩ := heq
          rw [set_self, if_pos List.mem_cons_self]
        · rw [set_of_ne heq, if_neg]
          intro hcons
          rcases List.mem_cons.mp hcons with hz | hz
          · exact heq ⟨congrArg Prod.fst hz, congrArg Prod.snd hz⟩
          · exact hmem hz

/-- Two continuations that agree on what is returned. -/
theorem bind_congr_ok {α β : Type} {x : Except ε α} {f g : α → Except ε β}
    (h : ∀ a, x = .ok a → f a = g a) : x >>= f = x >>= g := by
  cases x with
  | error stop => rfl
  | ok a => exact h a rfl

/-- The walk through a table at the bottom: the test of each entry sees it as it was before, as only
entries that were visited already have been written. -/
theorem visit_table (hleaf : ∀ z s s', leaf z s = .ok s' → view s' = set (view s) z.1 z.2 e)
    {l : List I} (hnodup : l.Nodup) :
    l.foldlM (fun s i => if (next (view s t i)).isSome then leaf (t, i) s else .ok s) s =
      ((l.filter fun i => (next (view s t i)).isSome).map fun i => (t, i)).foldlM
        (fun s z => leaf z s) s := by
  induction l generalizing s with
  | nil => rfl
  | cons i l ih =>
    obtain ⟨hi, hnodup⟩ := List.nodup_cons.mp hnodup
    rw [List.foldlM_cons]
    by_cases hsome : (next (view s t i)).isSome
    · rw [if_pos hsome, List.filter_cons, if_pos hsome, List.map_cons, List.foldlM_cons]
      apply bind_congr_ok
      intro s₁ hs₁
      rw [ih hnodup]
      congr 2
      apply List.filter_congr
      intro j hj
      have hne : ¬ (t = t ∧ j = i) := by
        rintro ⟨-, rfl⟩
        exact hi hj
      rw [hleaf (t, i) s s₁ hs₁, set_of_ne hne]
    · rw [if_neg hsome, List.filter_cons, if_neg hsome]
      exact ih hnodup

/-- The walk visits the entries that were there at the beginning. `leaf` writes only to entries at
the bottom that are visited already, so neither the links above nor the entries to come are changed.
-/
theorem visit_eq_foldlM (hall : ∀ i, i ∈ indices) (hnodup : indices.Nodup)
    (hleaf : ∀ z s s', leaf z s = .ok s' → view s' = set (view s) z.1 z.2 e)
    (htree : Tree next (view s) t n) :
    visit next indices view leaf n t s =
      (leaves next indices (view s) n t).foldlM (fun s z => leaf z s) s := by
  induction n generalizing t s with
  | zero => exact visit_table hleaf hnodup
  | succ n ih =>
    rw [visit, leaves]
    -- the entries of the table from some index on
    suffices hrest : ∀ l : List I, l.Nodup → ∀ s, Tree next (view s) t (n + 1) →
        l.foldlM (fun s i => (next (view s t i)).elim (.ok s) fun u =>
          visit next indices view leaf n u s) s =
        (l.flatMap fun i => (next (view s t i)).elim [] (leaves next indices (view s) n)).foldlM
          (fun s z => leaf z s) s from hrest indices hnodup s htree
    intro l
    induction l with
    | nil => exact fun _ _ _ => rfl
    | cons i l ihl =>
      intro hl s htree
      obtain ⟨hi, hl⟩ := List.nodup_cons.mp hl
      rw [List.foldlM_cons, List.flatMap_cons, List.foldlM_append]
      have hhead : ((next (view s t i)).elim (.ok s) fun u => visit next indices view leaf n u s) =
          ((next (view s t i)).elim [] (leaves next indices (view s) n)).foldlM
            (fun s z => leaf z s) s := by
        cases hu : next (view s t i) with
        | none => rfl
        | some u => exact ih (htree.child hu)
      rw [hhead]
      apply bind_congr_ok
      intro s₁ hs₁
      -- the calls have written entries below entry `i` only
      have hsame : ∀ q v, q.length ≤ n + 1 → descend next (view s) t q = some v →
          (∀ p, p.length = n → q ≠ i :: p) → view s₁ v = view s v := by
        intro q v hq hd hother
        funext j
        rw [view_foldlM hleaf hs₁, if_neg]
        intro hz
        obtain ⟨p, hp, hdp⟩ := mem_leaves_below hall hz
        exact hother p hp (htree q (i :: p) v hq (Nat.le_of_eq (congrArg Nat.succ hp)) hd hdp)
      have htree₁ : Tree next (view s₁) t (n + 1) := by
        apply htree.congr_lt
        intro q v hq hd
        apply hsame q v (by omega) hd
        rintro p hp rfl
        rw [List.length_cons] at hq
        omega
      rw [ihl hl s₁ htree₁]
      congr 1
      apply List.flatMap_congr
      intro j hj
      have hne : i ≠ j := by
        rintro rfl
        exact hi hj
      have hentry : view s₁ t = view s t := hsame [] t (Nat.zero_le _) rfl (by simp)
      rw [hentry]
      cases hu : next (view s t j) with
      | none => rfl
      | some u =>
        apply leaves_congr
        intro p v hp hd
        refine hsame (j :: p) v (Nat.succ_le_succ hp) ?_ ?_
        · rw [descend, hu]
          exact hd
        · intro q _ heq
          exact hne (List.cons.inj heq).1.symm

/-- When all entries at the bottom are cleared, nothing is found: the tables above are as before, so
a path ends where it ended, at an entry that is cleared now. -/
theorem lookup_cleared (hall : ∀ i, i ∈ indices) (htree : Tree next m root n)
    (he : next e = none)
    (hm : ∀ u j, m' u j = if (u, j) ∈ leaves next indices m n root then e else m u j)
    {p : List I} (hp : p.length = n) (i : I) : lookup next m' root p i = none := by
  have hsame : ∀ q v, q.length < n → descend next m root q = some v → m' v = m v := by
    intro q v hq hd
    funext j
    rw [hm, if_neg]
    intro hz
    obtain ⟨r, hr, hdr, -⟩ := (mem_leaves hall).mp hz
    have hpath := htree q r v (by omega) (by omega) hd hdr
    rw [hpath] at hq
    omega
  unfold lookup
  rw [descend_congr_lt hsame (Nat.le_of_eq hp)]
  cases hd : descend next m root p with
  | none => rfl
  | some t =>
    show Option.filter _ (some (m' t i)) = none
    rw [hm]
    split
    · simp [he]
    · next hz =>
      have hnone : ¬ (next (m t i)).isSome := by
        intro hsome
        exact hz ((mem_leaves hall).mpr ⟨p, hp, hd, hsome⟩)
      simpa using hnone

end Clear

/-! ## Two walks that go together

For a walk with an effect, and one that only collects what the effect is on. -/

section Hom

variable {τ : Type} {f : τ → Except ε σ}

end Hom

end KernelAarch64.Lib.Radix
