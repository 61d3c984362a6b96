import Mathlib.Logic.Function.Basic
import Mathlib.Data.List.Induction

/-!
# Write traces

A device is a function from addresses to contents, and what happens to it is a list of writes in
the order they are made. `applyWrites d ws` is the device after the writes `ws`; a power cut after
`k` writes leaves `applyWrites d (ws.take k)`.
-/

namespace KernelAarch64.Lib

variable {α β : Type*} [DecidableEq α]

/-- The device `d` after the writes `ws`, made in list order. -/
def applyWrites (d : α → β) (ws : List (α × β)) : α → β :=
  ws.foldl (fun d w => Function.update d w.1 w.2) d

@[simp] theorem applyWrites_nil (d : α → β) : applyWrites d [] = d := rfl

@[simp] theorem applyWrites_cons (d : α → β) (w : α × β) (ws : List (α × β)) :
    applyWrites d (w :: ws) = applyWrites (Function.update d w.1 w.2) ws := rfl

theorem applyWrites_append (d : α → β) (ws vs : List (α × β)) :
    applyWrites d (ws ++ vs) = applyWrites (applyWrites d ws) vs := by
  simp [applyWrites, List.foldl_append]

/-- The last write is what is read at its address. -/
@[simp] theorem applyWrites_concat (d : α → β) (ws : List (α × β)) (a : α) (v : β) :
    applyWrites d (ws ++ [(a, v)]) = Function.update (applyWrites d ws) a v := by
  rw [applyWrites_append]
  rfl

/-- An address no write names keeps its content. -/
theorem applyWrites_of_notMem {ws : List (α × β)} {a : α} (h : a ∉ ws.map Prod.fst)
    (d : α → β) : applyWrites d ws a = d a := by
  induction ws generalizing d with
  | nil => rfl
  | cons w ws ih =>
    simp only [List.map_cons, List.mem_cons, not_or] at h
    rw [applyWrites_cons, ih h.2, Function.update_of_ne h.1]

/-- What a device holds after some writes depends, at each address, only on the writes and on what
the device held there. -/
theorem applyWrites_congr {ws : List (α × β)} {d d' : α → β} {a : α} (h : d a = d' a) :
    applyWrites d ws a = applyWrites d' ws a := by
  induction ws generalizing d d' with
  | nil => exact h
  | cons w ws ih =>
    rw [applyWrites_cons, applyWrites_cons]
    apply ih
    by_cases ha : a = w.1
    · subst ha
      simp
    · rw [Function.update_of_ne ha, Function.update_of_ne ha, h]

/-- At a written address the old content does not matter. -/
theorem applyWrites_congr_of_mem {ws : List (α × β)} {a : α} (h : a ∈ ws.map Prod.fst)
    (d d' : α → β) : applyWrites d ws a = applyWrites d' ws a := by
  induction ws generalizing d d' with
  | nil => simp at h
  | cons w ws ih =>
    by_cases htail : a ∈ ws.map Prod.fst
    · exact ih htail _ _
    · have ha : a = w.1 := by simpa [htail] using h
      rw [applyWrites_cons, applyWrites_cons]
      apply applyWrites_congr
      subst ha
      simp

/-- A written address holds the content of one of the writes to it. -/
theorem exists_mem_of_applyWrites {ws : List (α × β)} {a : α} (h : a ∈ ws.map Prod.fst)
    (d : α → β) : (a, applyWrites d ws a) ∈ ws := by
  induction ws using List.reverseRecOn with
  | nil => simp at h
  | append_singleton ws w ih =>
    obtain ⟨b, v⟩ := w
    rw [applyWrites_concat]
    by_cases hab : a = b
    · subst hab
      simp
    · rw [Function.update_of_ne hab]
      have hws : a ∈ ws.map Prod.fst := by simpa [hab] using h
      exact List.mem_append_left _ (ih hws)

/-- Writing `f a` at every `a` of a list leaves `f` on the list and the old content off it. -/
theorem applyWrites_map (d : α → β) (as : List α) (f : α → β) (a : α) :
    applyWrites d (as.map fun b => (b, f b)) a = if a ∈ as then f a else d a := by
  split
  · next h =>
    have hmem : a ∈ (as.map fun b => (b, f b)).map Prod.fst := by simpa using h
    obtain ⟨b, -, hb⟩ := List.mem_map.mp (exists_mem_of_applyWrites hmem d)
    obtain ⟨rfl, hf⟩ := Prod.mk.inj hb
    exact hf.symm
  · next h =>
    apply applyWrites_of_notMem
    simpa using h

/-- Values written at addresses without repetition are read there in their order. -/
theorem map_applyWrites_zip {as : List α} {bs : List β} (has : as.Nodup)
    (hlen : as.length = bs.length) (d : α → β) : as.map (applyWrites d (as.zip bs)) = bs := by
  induction as generalizing bs d with
  | nil => exact (List.length_eq_zero_iff.mp hlen.symm).symm
  | cons a as ih =>
    obtain ⟨b, bs, rfl⟩ := List.exists_cons_of_length_eq_add_one hlen.symm
    obtain ⟨ha, has⟩ := List.nodup_cons.mp has
    have hnot : a ∉ (as.zip bs).map Prod.fst := by
      intro hmem
      obtain ⟨w, hw, rfl⟩ := List.mem_map.mp hmem
      exact ha (List.of_mem_zip hw).1
    rw [List.zip_cons_cons, applyWrites_cons, List.map_cons, applyWrites_of_notMem hnot,
      Function.update_self, ih has (Nat.succ.inj hlen)]

/-- Replaying a list of writes over a device on which a part of them was already made gives what
replaying them once gives. -/
theorem applyWrites_replay {ws vs : List (α × β)} (h : vs ⊆ ws) (d : α → β) :
    applyWrites (applyWrites d vs) ws = applyWrites d ws := by
  funext a
  by_cases ha : a ∈ ws.map Prod.fst
  · exact applyWrites_congr_of_mem ha _ _
  · apply applyWrites_congr
    apply applyWrites_of_notMem
    intro hv
    obtain ⟨w, hw, rfl⟩ := List.mem_map.mp hv
    exact ha (List.mem_map_of_mem (h hw))

end KernelAarch64.Lib
