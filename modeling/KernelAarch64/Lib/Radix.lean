import Mathlib.Logic.Function.Basic
import Mathlib.Data.List.Induction

/-!
# Radix trees of tables in a shared memory

A memory holds tables, each a function from indices to entries, and `next` says which table an
entry points to, if any. The tables reached from a root along paths of at most `n` indices form a
tree when no two paths reach the same table. `Tree.link` and `Tree.set_leaf` say what the two
updates of such a tree do: linking a fresh table into an empty entry, and writing an entry of a
table at depth `n`. Neither disturbs what is found along any other path.

`Tree` is the invariant that no table is reached in two ways. There are two operations, with a
section each, and for both the lemmas say how it changes `descend`, `lookup` and the invariants:
linking a fresh table, which changes nothing that is found, and writing an entry at the bottom,
which changes one thing.
-/

namespace KernelAarch64.Lib.Radix

variable {P I E : Type*} (next : E → Option P)

/-- The table reached from a table along a path. -/
def descend (m : P → I → E) : P → List I → Option P
  | t, [] => some t
  | t, i :: p => (next (m t i)).bind fun u => descend m u p

/-- The entry at index `i` of the table at the end of a path, if it points anywhere. -/
def lookup (m : P → I → E) (root : P) (p : List I) (i : I) : Option E :=
  ((descend next m root p).map fun t => m t i).filter fun e => (next e).isSome

/-- No two paths of at most `n` indices reach the same table. -/
def Tree (m : P → I → E) (root : P) (n : Nat) : Prop :=
  ∀ p q t, p.length ≤ n → q.length ≤ n → descend next m root p = some t →
    descend next m root q = some t → p = q

/-- A table that no path reaches and that is empty. -/
structure Fresh (m : P → I → E) (root : P) (n : Nat) (f : P) : Prop where
  unreached : ∀ p, p.length ≤ n → descend next m root p ≠ some f
  empty : ∀ i, next (m f i) = none

/-- The entries that lead on from the tables above depth `n` have the property. -/
def EntriesAbove (m : P → I → E) (root : P) (n : Nat) (ok : E → Prop) : Prop :=
  ∀ p t i, p.length < n → descend next m root p = some t → (next (m t i)).isSome → ok (m t i)

variable {next} {m m' : P → I → E} {root t f u : P} {n : Nat} {p q : List I} {i j : I} {e : E}
  {ok : E → Prop}

/-- One index more. -/
theorem descend_concat (m : P → I → E) (t : P) (p : List I) (i : I) :
    descend next m t (p ++ [i]) = (descend next m t p).bind fun u => next (m u i) := by
  induction p generalizing t with
  | nil =>
    show (next (m t i)).bind (fun u => some u) = next (m t i)
    cases next (m t i) <;> rfl
  | cons j p ih =>
    show (next (m t j)).bind _ = ((next (m t j)).bind _).bind _
    rw [Option.bind_assoc]
    congr 1
    funext u
    exact ih u

/-- One index more, from a table that is known. -/
theorem descend_concat_of (h : descend next m root p = some t) :
    descend next m root (p ++ [i]) = next (m t i) := by
  rw [descend_concat, h]
  rfl

/-- What is reached depends only on the tables that are reached on the way. -/
theorem descend_congr_lt (h : ∀ p t, p.length < n → descend next m root p = some t → m' t = m t)
    (hp : p.length ≤ n) : descend next m' root p = descend next m root p := by
  induction p using List.reverseRecOn with
  | nil => rfl
  | append_singleton p i ih =>
    have hlen : p.length < n := by
      rw [List.length_append, List.length_singleton] at hp
      omega
    rw [descend_concat, descend_concat, ih (by omega)]
    cases hd : descend next m root p with
    | none => rfl
    | some t =>
      show next (m' t i) = next (m t i)
      rw [h p t hlen hd]

/-- The same, with one table more than is needed. -/
theorem descend_congr (h : ∀ p t, p.length ≤ n → descend next m root p = some t → m' t = m t)
    (hp : p.length ≤ n) : descend next m' root p = descend next m root p :=
  descend_congr_lt (fun p t hlen => h p t (by omega)) hp

/-- What is found depends only on the tables that are reached. -/
theorem lookup_congr (h : ∀ p t, p.length ≤ n → descend next m root p = some t → m' t = m t)
    (hp : p.length ≤ n) (i : I) : lookup next m' root p i = lookup next m root p i := by
  unfold lookup
  rw [descend_congr h hp]
  cases hd : descend next m root p with
  | none => rfl
  | some t =>
    show Option.filter _ (some (m' t i)) = Option.filter _ (some (m t i))
    rw [h p t hp hd]

/-- Whether it is a tree depends only on the tables above the bottom. -/
theorem Tree.congr_lt (htree : Tree next m root n)
    (h : ∀ p t, p.length < n → descend next m root p = some t → m' t = m t) :
    Tree next m' root n := by
  intro p q t hp hq hdp hdq
  rw [descend_congr_lt h hp] at hdp
  rw [descend_congr_lt h hq] at hdq
  exact htree p q t hp hq hdp hdq

/-- The same, with one table more than is needed. -/
theorem Tree.congr (htree : Tree next m root n)
    (h : ∀ p t, p.length ≤ n → descend next m root p = some t → m' t = m t) :
    Tree next m' root n :=
  htree.congr_lt fun p t hp => h p t (by omega)

/-- An empty root is a tree with nothing in it. -/
theorem Tree.of_empty (h : ∀ i, next (m root i) = none) : Tree next m root n := by
  have hnil : ∀ p t, descend next m root p = some t → p = [] := by
    intro p t hd
    cases p with
    | nil => rfl
    | cons i p =>
      rw [descend, h i] at hd
      cases hd
  intro p q t _ _ hp hq
  rw [hnil p t hp, hnil q t hq]

/-- An empty root leads nowhere. -/
theorem EntriesAbove.of_empty (h : ∀ i, next (m root i) = none) :
    EntriesAbove next m root n ok := by
  intro p t i _ hd hsome
  cases p with
  | nil =>
    cases hd
    rw [h i] at hsome
    cases hsome
  | cons j p =>
    rw [descend, h j] at hd
    cases hd

/-- The entries above the bottom depend only on the tables there. -/
theorem EntriesAbove.congr (hentries : EntriesAbove next m root n ok)
    (h : ∀ p t, p.length < n → descend next m root p = some t → m' t = m t) :
    EntriesAbove next m' root n ok := by
  intro p t i hp hd
  rw [descend_congr_lt h (Nat.le_of_lt hp)] at hd
  rw [h p t hp hd]
  exact hentries p t i hp hd

variable [DecidableEq P] [DecidableEq I]

/-- The memory with entry `i` of table `t` written. -/
def set (m : P → I → E) (t : P) (i : I) (e : E) : P → I → E :=
  Function.update m t (Function.update (m t) i e)

theorem set_self (m : P → I → E) (t : P) (i : I) (e : E) : set m t i e t i = e := by
  simp [set]

theorem set_of_ne (h : ¬ (u = t ∧ j = i)) : set m t i e u j = m u j := by
  unfold set
  by_cases hu : u = t
  · subst hu
    rw [Function.update_self, Function.update_of_ne fun hj => h ⟨rfl, hj⟩]
  · rw [Function.update_of_ne hu]

/-! ## Linking a fresh table

The new table is empty, so only the path that ends in it is new. -/

section Link

variable (htree : Tree next m root n) (hp : p.length < n) (ht : descend next m root p = some t)
  (hnone : next (m t i) = none) (hfresh : Fresh next m root n f) (he : next e = some f)

include htree hp ht hnone hfresh he

/-- Linking a fresh table makes it the one at the end of the path, and changes no other path. By
induction on the path that is descended: it leaves the linked one at some table, or it passes
through the new link and ends there. -/
theorem descend_link (hq : q.length ≤ n) :
    descend next (set m t i e) root q =
      if q = p ++ [i] then some f else descend next m root q := by
  -- The fresh table is not the one that it is linked from, which has been reached.
  have hft : f ≠ t := fun h => hfresh.unreached p (by omega) (h ▸ ht)
  induction q using List.reverseRecOn with
  | nil =>
    rw [if_neg (by simp)]
    rfl
  | append_singleton q j ih =>
    have hlen : q.length ≤ n := by
      rw [List.length_append] at hq
      omega
    rw [descend_concat, ih hlen]
    by_cases hqp : q = p ++ [i]
    · -- below the fresh table there is nothing, before as after
      have hbelow : q ++ [j] ≠ p ++ [i] := by
        intro h
        have := congrArg List.length h
        rw [hqp] at this
        simp at this
      have hempty : next (set m t i e f j) = none := by
        rw [set_of_ne fun h => hft h.1]
        exact hfresh.empty j
      rw [if_pos hqp, if_neg hbelow, descend_concat, hqp, descend_concat_of ht, hnone]
      exact hempty
    · rw [if_neg hqp]
      cases hd : descend next m root q with
      | none =>
        have hne : q ++ [j] ≠ p ++ [i] := by
          intro h
          rw [(List.append_inj' h rfl).1, ht] at hd
          cases hd
        rw [if_neg hne, descend_concat, hd]
        rfl
      | some u =>
        show next (set m t i e u j) = _
        by_cases hentry : u = t ∧ j = i
        · obtain ⟨rfl, rfl⟩ := hentry
          -- In a tree only the path `p` leads to `t`.
          have hpath : q = p := htree q p u hlen (by omega) hd ht
          rw [set_self, he, if_pos (by rw [hpath])]
        · have hne : q ++ [j] ≠ p ++ [i] := by
            intro h
            obtain ⟨rfl, hij⟩ := List.append_inj' h rfl
            rw [ht] at hd
            exact hentry ⟨(Option.some.inj hd).symm, (List.cons.inj hij).1⟩
          rw [set_of_ne hentry, if_neg hne, descend_concat_of hd]

/-- A fresh table is reached in one way, which is the path to the entry that now leads to it. It has
no entries, and so nothing lies behind it. -/
theorem Tree.link : Tree next (set m t i e) root n := by
  intro q r u hq hr hdq hdr
  rw [descend_link htree hp ht hnone hfresh he hq] at hdq
  rw [descend_link htree hp ht hnone hfresh he hr] at hdr
  split at hdq
  · rename_i hqp
    split at hdr
    · rename_i hrp
      rw [hqp, hrp]
    · cases hdq
      exact absurd hdr (hfresh.unreached r hr)
  · split at hdr
    · cases hdr
      exact absurd hdq (hfresh.unreached q hq)
    · exact htree q r u hq hr hdq hdr

/-- Linking a fresh table changes no entry that is found. Through the new link nothing is found, as
the fresh table is empty, and before it nothing was. -/
theorem lookup_link (hq : q.length = n) :
    lookup next (set m t i e) root q j = lookup next m root q j := by
  have hft : f ≠ t := fun h => hfresh.unreached p (by omega) (h ▸ ht)
  unfold lookup
  rw [descend_link htree hp ht hnone hfresh he (Nat.le_of_eq hq)]
  by_cases hqp : q = p ++ [i]
  · rw [if_pos hqp, hqp, descend_concat_of ht, hnone]
    show Option.filter _ (some (set m t i e f j)) = none
    rw [set_of_ne fun h => hft h.1]
    simp [hfresh.empty j]
  · rw [if_neg hqp]
    cases hd : descend next m root q with
    | none => rfl
    | some u =>
      have hne : ¬ (u = t ∧ j = i) := by
        intro h
        have hpath : q = p := htree q p t (Nat.le_of_eq hq) (by omega) (h.1 ▸ hd) ht
        rw [hpath] at hq
        omega
      show Option.filter _ (some (set m t i e u j)) = Option.filter _ (some (m u j))
      rw [set_of_ne hne]

/-- A link has the property if the entry that is written has it. -/
theorem EntriesAbove.link (hentries : EntriesAbove next m root n ok) (hok : ok e) :
    EntriesAbove next (set m t i e) root n ok := by
  intro q u j hq hd hsome
  rw [descend_link htree hp ht hnone hfresh he (Nat.le_of_lt hq)] at hd
  by_cases hentry : u = t ∧ j = i
  · obtain ⟨rfl, rfl⟩ := hentry
    rw [set_self]
    exact hok
  · rw [set_of_ne hentry] at hsome ⊢
    split at hd
    · cases hd
      rw [hfresh.empty j] at hsome
      cases hsome
    · exact hentries q u j hq hd hsome

/-- Another fresh table stays fresh, since the entry that was written leads elsewhere. -/
theorem Fresh.link {g : P} (hg : Fresh next m root n g) (hne : g ≠ f) :
    Fresh next (set m t i e) root n g := by
  have hgt : g ≠ t := fun h => hg.unreached p (by omega) (h ▸ ht)
  constructor
  · intro q hq
    rw [descend_link htree hp ht hnone hfresh he hq]
    split
    · intro h
      exact hne (Option.some.inj h).symm
    · exact hg.unreached q hq
  · intro j
    rw [set_of_ne fun h => hgt h.1]
    exact hg.empty j

end Link

/-! ## Writing an entry at the bottom

What an entry at the bottom points to is not looked into as a table. -/

section Leaf

variable (htree : Tree next m root n) (hp : p.length = n) (ht : descend next m root p = some t)

include htree hp ht

/-- The entries of the tables at depth `n` lead nowhere within `n` indices. -/
theorem descend_set_leaf (hq : q.length ≤ n) :
    descend next (set m t i e) root q = descend next m root q := by
  induction q using List.reverseRecOn with
  | nil => rfl
  | append_singleton q j ih =>
    have hlen : q.length < n := by
      rw [List.length_append, List.length_singleton] at hq
      omega
    rw [descend_concat, descend_concat, ih (by omega)]
    cases hd : descend next m root q with
    | none => rfl
    | some u =>
      have hut : u ≠ t := by
        intro h
        have hpath : q = p := htree q p t (by omega) (Nat.le_of_eq hp) (h ▸ hd) ht
        rw [hpath] at hlen
        omega
      show next (set m t i e u j) = next (m u j)
      rw [set_of_ne fun h => hut h.1]

/-- An entry at the bottom makes no difference. -/
theorem Tree.set_leaf : Tree next (set m t i e) root n := by
  intro q r u hq hr hdq hdr
  rw [descend_set_leaf htree hp ht hq] at hdq
  rw [descend_set_leaf htree hp ht hr] at hdr
  exact htree q r u hq hr hdq hdr

/-- An entry at the bottom is none of those above. -/
theorem EntriesAbove.set_leaf (hentries : EntriesAbove next m root n ok) :
    EntriesAbove next (set m t i e) root n ok := by
  apply hentries.congr
  intro q u hq hd
  have hut : u ≠ t := by
    rintro rfl
    have hpath : q = p := htree q p u (Nat.le_of_lt hq) (Nat.le_of_eq hp) hd ht
    rw [hpath] at hq
    omega
  exact Function.update_of_ne hut _ _

/-- Writing an entry at the bottom changes what is found there and nowhere else. In a tree no other
path leads to the same table, which is what `htree` is for. -/
theorem lookup_set_leaf (he : (next e).isSome) (hq : q.length = n) :
    lookup next (set m t i e) root q j =
      if q = p ∧ j = i then some e else lookup next m root q j := by
  unfold lookup
  rw [descend_set_leaf htree hp ht (Nat.le_of_eq hq)]
  by_cases hentry : q = p ∧ j = i
  · obtain ⟨rfl, rfl⟩ := hentry
    rw [if_pos ⟨rfl, rfl⟩, ht]
    show Option.filter _ (some (set m t j e t j)) = some e
    rw [set_self]
    simp [he]
  · rw [if_neg hentry]
    cases hd : descend next m root q with
    | none => rfl
    | some u =>
      have hne : ¬ (u = t ∧ j = i) := by
        intro h
        have hpath : q = p := htree q p t (Nat.le_of_eq hq) (Nat.le_of_eq hp) (h.1 ▸ hd) ht
        exact hentry ⟨hpath, h.2⟩
      show Option.filter _ (some (set m t i e u j)) = Option.filter _ (some (m u j))
      rw [set_of_ne hne]

end Leaf

end KernelAarch64.Lib.Radix
