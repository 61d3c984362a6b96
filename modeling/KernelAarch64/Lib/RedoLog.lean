import KernelAarch64.Lib.Writes

/-!
# Redo logging

A redo log reserves an area of the device: a header that names the home addresses of the logged
blocks, and one slot for the new content of each. A commit copies the new contents to the slots,
writes the header, copies the slots home and clears the header; recovery repeats the last two.

`view d` is what recovery makes of the device `d`. Both protocols are summed up by what a cut after
any of their writes does to it: a cut commit shows the old contents or all of the new ones
(`commit_cut`), and a cut recovery changes nothing (`recover_cut`), so that it can be started over
any number of times.
-/

namespace KernelAarch64.Lib

variable {α β : Type*}

/-- Where a redo log keeps its header and its slots, and how a header block is read. -/
structure RedoLog (α β : Type*) where
  hdr : α
  slot : Nat → α
  /-- The header blocks that can be read at all. -/
  readable : β → Prop
  /-- The home addresses a header block names, in slot order. -/
  homes : β → List α
  slot_injective : Function.Injective slot
  slot_ne_hdr : ∀ i, slot i ≠ hdr

namespace RedoLog

/-- The device holds a log that recovery can use: the header and the slots in use lie in the log
area, the logged blocks do not. -/
structure Sound (L : RedoLog α β) (area : α → Prop) (d : α → β) : Prop where
  hdr_mem : area L.hdr
  readable : L.readable (d L.hdr)
  slot_mem : ∀ i < (L.homes (d L.hdr)).length, area (L.slot i)
  home_notMem : ∀ a ∈ L.homes (d L.hdr), ¬ area a

/-- The writes that copy the slots home. -/
def redo (L : RedoLog α β) (d : α → β) : List (α × β) :=
  (L.homes (d L.hdr)).zipIdx.map fun p => (p.1, d (L.slot p.2))

/-- The writes that copy the new contents `v` of the blocks `hs` to the slots. -/
def copies (L : RedoLog α β) (hs : List α) (v : α → β) : List (α × β) :=
  hs.zipIdx.map fun p => (L.slot p.2, v p.1)

variable {L : RedoLog α β} {area : α → Prop} {d d' : α → β}

theorem redo_of_empty (h : L.homes (d L.hdr) = []) : L.redo d = [] := by
  simp [redo, h]

theorem Sound.of_empty (hhdr : area L.hdr) (hr : L.readable (d L.hdr))
    (h : L.homes (d L.hdr) = []) : L.Sound area d :=
  ⟨hhdr, hr, by simp [h], by simp [h]⟩

/-- The log is read from the log area only. -/
theorem Sound.congr (hd : L.Sound area d) (h : ∀ a, area a → d' a = d a) : L.Sound area d' := by
  have hhdr : d' L.hdr = d L.hdr := h _ hd.hdr_mem
  constructor
  · exact hd.hdr_mem
  · rw [hhdr]
    exact hd.readable
  · rw [hhdr]
    exact hd.slot_mem
  · rw [hhdr]
    exact hd.home_notMem

theorem Sound.redo_congr (hd : L.Sound area d) (h : ∀ a, area a → d' a = d a) :
    L.redo d' = L.redo d := by
  rw [redo, redo, h _ hd.hdr_mem]
  apply List.map_congr_left
  rintro ⟨a, i⟩ hp
  have hi : i < (L.homes (d L.hdr)).length := List.snd_lt_of_mem_zipIdx hp
  rw [h _ (hd.slot_mem i hi)]

theorem Sound.fst_redo_notMem (hd : L.Sound area d) {a : α} (h : a ∈ (L.redo d).map Prod.fst) :
    ¬ area a := by
  obtain ⟨w, hw, rfl⟩ := List.mem_map.mp h
  obtain ⟨⟨b, i⟩, hp, rfl⟩ := List.mem_map.mp hw
  exact hd.home_notMem b (List.fst_mem_of_mem_zipIdx hp)

@[simp] theorem length_copies (hs : List α) (v : α → β) :
    (L.copies hs v).length = hs.length := by
  simp [copies]

/-- The log copies touch slots only. -/
theorem fst_copies {hs : List α} {v : α → β} {a : α} (h : a ∈ (L.copies hs v).map Prod.fst) :
    ∃ i < hs.length, a = L.slot i := by
  obtain ⟨w, hw, rfl⟩ := List.mem_map.mp h
  obtain ⟨⟨b, i⟩, hp, rfl⟩ := List.mem_map.mp hw
  exact ⟨i, List.snd_lt_of_mem_zipIdx hp, rfl⟩

variable [DecidableEq α]

/-- What recovery makes of the device. -/
def view (L : RedoLog α β) (d : α → β) : α → β := applyWrites d (L.redo d)

theorem view_of_empty (h : L.homes (d L.hdr) = []) : L.view d = d := by
  rw [view, redo_of_empty h, applyWrites_nil]

/-! ## Recovery -/

/-- Some of the writes of recovery, made in any order, leave the log and its view as they were. -/
theorem Sound.replay (hd : L.Sound area d) {vs : List (α × β)} (hvs : vs ⊆ L.redo d) :
    L.Sound area (applyWrites d vs) ∧ L.view (applyWrites d vs) = L.view d := by
  have hagree : ∀ a, area a → applyWrites d vs a = d a := by
    intro a ha
    apply applyWrites_of_notMem
    intro hmem
    obtain ⟨w, hw, rfl⟩ := List.mem_map.mp hmem
    exact hd.fst_redo_notMem (List.mem_map_of_mem (hvs hw)) ha
  refine ⟨hd.congr hagree, ?_⟩
  rw [view, hd.redo_congr hagree, applyWrites_replay hvs, view]

/-- Recovery, run to its end, leaves its view on the device and an empty header. -/
theorem Sound.recover (hd : L.Sound area d) {e₀ : β} {a : α} (ha : ¬ area a) :
    applyWrites d (L.redo d ++ [(L.hdr, e₀)]) a = L.view d a := by
  rw [applyWrites_concat, Function.update_of_ne, view]
  rintro rfl
  exact ha hd.hdr_mem

/-- A recovery cut after any of its writes leaves a log with the same view. -/
theorem Sound.recover_cut (hd : L.Sound area d) {e₀ : β} (hr₀ : L.readable e₀)
    (he₀ : L.homes e₀ = []) (j : Nat) :
    L.Sound area (applyWrites d ((L.redo d ++ [(L.hdr, e₀)]).take j)) ∧
      ∀ a, ¬ area a →
        L.view (applyWrites d ((L.redo d ++ [(L.hdr, e₀)]).take j)) a = L.view d a := by
  by_cases hj : j ≤ (L.redo d).length
  · -- The cut falls before the header is cleared.
    rw [List.take_append_of_le_length hj]
    obtain ⟨hs, hv⟩ := hd.replay (List.take_subset j (L.redo d))
    exact ⟨hs, fun a _ => congrFun hv a⟩
  · -- Recovery was complete: the header is empty and the view is the device itself.
    rw [List.take_of_length_le (by simp; omega)]
    have hempty : L.homes (applyWrites d (L.redo d ++ [(L.hdr, e₀)]) L.hdr) = [] := by
      simpa using he₀
    have hread : L.readable (applyWrites d (L.redo d ++ [(L.hdr, e₀)]) L.hdr) := by
      simpa using hr₀
    refine ⟨.of_empty hd.hdr_mem hread hempty, fun a ha => ?_⟩
    rw [view_of_empty hempty, hd.recover ha]

/-! ## Commit -/

theorem applyWrites_copies (d : α → β) {hs : List α} (v : α → β) {i : Nat} (hi : i < hs.length) :
    applyWrites d (L.copies hs v) (L.slot i) = v hs[i] := by
  have hmem : L.slot i ∈ (L.copies hs v).map Prod.fst := by
    refine List.mem_map.mpr ⟨(L.slot i, v hs[i]), ?_, rfl⟩
    exact List.mem_map.mpr ⟨(hs[i], i), List.mk_mem_zipIdx_iff_getElem?.mpr (by simp [hi]), rfl⟩
  obtain ⟨⟨b, j⟩, hp, hb⟩ := List.mem_map.mp (exists_mem_of_applyWrites hmem d)
  obtain ⟨hslot, hv⟩ := Prod.mk.inj hb
  have hij : j = i := L.slot_injective hslot
  subst hij
  have hget : hs[j]? = some b := List.mk_mem_zipIdx_iff_getElem?.mp hp
  rw [List.getElem?_eq_getElem hi] at hget
  rw [← hv, Option.some.inj hget]

/-- Once the copies and the header are on the device, recovery installs the new contents. -/
theorem redo_commit (d : α → β) {hs : List α} (v : α → β) {e : β} (he : L.homes e = hs) :
    L.redo (applyWrites d (L.copies hs v ++ [(L.hdr, e)])) = hs.map fun a => (a, v a) := by
  rw [applyWrites_concat, redo, Function.update_self, he]
  apply List.ext_getElem
  · simp
  · intro i h₁ h₂
    have hi : i < hs.length := by simpa using h₂
    simp only [List.getElem_map, List.getElem_zipIdx, Nat.zero_add]
    rw [Function.update_of_ne (L.slot_ne_hdr i), applyWrites_copies d v hi]

/-- The log a commit may use: it has a slot for each block, and no block lies in the log area. -/
structure Room (L : RedoLog α β) (area : α → Prop) (hs : List α) : Prop where
  hdr_mem : area L.hdr
  slot_mem : ∀ i < hs.length, area (L.slot i)
  home_notMem : ∀ a ∈ hs, ¬ area a

theorem Room.copies_agree {hs : List α} (hr : L.Room area hs) (v : α → β) {ws : List (α × β)}
    (hws : ws ⊆ L.copies hs v) {a : α} (ha : ¬ area a) : applyWrites d ws a = d a := by
  apply applyWrites_of_notMem
  intro hmem
  obtain ⟨w, hw, rfl⟩ := List.mem_map.mp hmem
  obtain ⟨i, hi, hslot⟩ := fst_copies (List.mem_map_of_mem (hws hw))
  exact ha (hslot ▸ hr.slot_mem i hi)

/-- Until the header is written, the log stays empty. -/
theorem applyWrites_copies_hdr {hs : List α} (v : α → β) {ws : List (α × β)}
    (hws : ws ⊆ L.copies hs v) : applyWrites d ws L.hdr = d L.hdr := by
  apply applyWrites_of_notMem
  intro hmem
  obtain ⟨w, hw, hhdr⟩ := List.mem_map.mp hmem
  obtain ⟨i, -, hslot⟩ := fst_copies (List.mem_map_of_mem (hws hw))
  exact L.slot_ne_hdr i (by rw [← hslot, hhdr])

/-- The device right after the header write holds a sound log whose view is the new contents. -/
theorem Room.sound_commit {hs : List α} (hr : L.Room area hs) (d : α → β) (v : α → β) {e : β}
    (hre : L.readable e) (he : L.homes e = hs) :
    L.Sound area (applyWrites d (L.copies hs v ++ [(L.hdr, e)])) ∧
      ∀ a, ¬ area a → L.view (applyWrites d (L.copies hs v ++ [(L.hdr, e)])) a =
        applyWrites d (hs.map fun a => (a, v a)) a := by
  have hhdr : applyWrites d (L.copies hs v ++ [(L.hdr, e)]) L.hdr = e := by simp
  refine ⟨⟨hr.hdr_mem, ?_, ?_, ?_⟩, fun a ha => ?_⟩
  · rw [hhdr]
    exact hre
  · rw [hhdr, he]
    exact hr.slot_mem
  · rw [hhdr, he]
    exact hr.home_notMem
  · rw [view, redo_commit d v he]
    apply applyWrites_congr
    rw [applyWrites_concat, Function.update_of_ne (by rintro rfl; exact ha hr.hdr_mem)]
    exact hr.copies_agree v (List.Subset.refl _) ha

/-- The writes of a commit: the copies, the header, the contents at home, the cleared header. -/
def commitWrites (L : RedoLog α β) (hs : List α) (v : α → β) (e e₀ : β) : List (α × β) :=
  L.copies hs v ++ [(L.hdr, e)] ++ ((hs.map fun a => (a, v a)) ++ [(L.hdr, e₀)])

/-- A commit cut after `k` of its writes shows all of the new contents if the header write is
among them, and none otherwise. -/
theorem Room.commit_cut {hs : List α} (hr : L.Room area hs) (hrd : L.readable (d L.hdr))
    (hd : L.homes (d L.hdr) = []) (v : α → β) {e e₀ : β} (hre : L.readable e)
    (he : L.homes e = hs) (hr₀ : L.readable e₀) (he₀ : L.homes e₀ = []) (k : Nat) :
    L.Sound area (applyWrites d ((L.commitWrites hs v e e₀).take k)) ∧
      ∀ a, ¬ area a → L.view (applyWrites d ((L.commitWrites hs v e e₀).take k)) a =
        if k ≤ hs.length then d a else applyWrites d (hs.map fun a => (a, v a)) a := by
  rw [commitWrites]
  by_cases hk : k ≤ hs.length
  · -- Only copies were made.
    have hlen : k ≤ (L.copies hs v).length := by simpa using hk
    rw [List.append_assoc, List.take_append_of_le_length hlen]
    have hsub : (L.copies hs v).take k ⊆ L.copies hs v := List.take_subset k _
    have hempty : L.homes (applyWrites d ((L.copies hs v).take k) L.hdr) = [] := by
      rw [applyWrites_copies_hdr v hsub, hd]
    have hread : L.readable (applyWrites d ((L.copies hs v).take k) L.hdr) := by
      rw [applyWrites_copies_hdr v hsub]
      exact hrd
    refine ⟨.of_empty hr.hdr_mem hread hempty, fun a ha => ?_⟩
    rw [view_of_empty hempty, if_pos hk, hr.copies_agree v hsub ha]
  · -- The header was written: what follows is a recovery of the log it describes.
    obtain ⟨hs₂, hv₂⟩ := hr.sound_commit d v hre he
    obtain ⟨j, rfl⟩ : ∃ j, k = (L.copies hs v ++ [(L.hdr, e)]).length + j :=
      ⟨k - hs.length - 1, by simp; omega⟩
    rw [List.take_append, List.take_of_length_le (by omega), Nat.add_sub_cancel_left,
      applyWrites_append, ← redo_commit d v he]
    obtain ⟨hs₃, hv₃⟩ := hs₂.recover_cut hr₀ he₀ j
    refine ⟨hs₃, fun a ha => ?_⟩
    rw [hv₃ a ha, hv₂ a ha, if_neg hk, redo_commit d v he]

/-- A commit that ran to its end has installed the new contents. -/
theorem Room.commit {hs : List α} (hr : L.Room area hs) (d : α → β) (v : α → β) {e : β}
    (hre : L.readable e) (he : L.homes e = hs) (e₀ : β) {a : α} (ha : ¬ area a) :
    applyWrites d (L.commitWrites hs v e e₀) a = applyWrites d (hs.map fun a => (a, v a)) a := by
  obtain ⟨hs₂, hv₂⟩ := hr.sound_commit d v hre he
  rw [commitWrites, applyWrites_append, ← redo_commit d v he, hs₂.recover ha, hv₂ a ha,
    redo_commit d v he]

end RedoLog

end KernelAarch64.Lib
