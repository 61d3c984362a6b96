import KernelAarch64.Lib.Bytes
import Mathlib.Data.UInt

/-!
# Words in byte memory

A word is eight bytes, the lowest first. Addresses wrap around, so that `a` is one of the `n` bytes
at `p` when `a - p < n`, and two words share no byte when neither address is less than eight above
the other.
-/

namespace KernelAarch64.Lib

/-- The word at `p`. -/
def load64 (mem : UInt64 → UInt8) (p : UInt64) : UInt64 :=
  .ofNat (leNat 8 fun k => mem (p + .ofNat k))

/-- The memory after the word at `p` is set to `v`. -/
def store64 (mem : UInt64 → UInt8) (p v : UInt64) : UInt64 → UInt8 := fun a =>
  if a - p < 8 then leByte v.toNat (a - p).toNat else mem a

/-- The `n` words from `p` on. -/
def words (mem : UInt64 → UInt8) : UInt64 → Nat → List UInt64
  | _, 0 => []
  | p, n + 1 => load64 mem p :: words mem (p + 8) n

variable {mem mem' : UInt64 → UInt8} {p q v a : UInt64} {n : Nat}

theorem add_ofNat_sub (p : UInt64) (k : Nat) : p + .ofNat k - p = .ofNat k := by
  rw [UInt64.add_comm]
  exact UInt64.add_sub_cancel _ _

theorem ofNat_lt_eight {k : Nat} (hk : k < 8) : UInt64.ofNat k < 8 := by
  rw [UInt64.lt_iff_toNat_lt, UInt64.toNat_ofNat']
  exact lt_of_le_of_lt (Nat.mod_le _ _) hk

/-! ## One word -/

theorem load64_congr (h : ∀ a, a - p < 8 → mem a = mem' a) : load64 mem p = load64 mem' p := by
  rw [load64, load64]
  congr 1
  apply leNat_congr
  intro k hk
  apply h
  rw [add_ofNat_sub]
  exact ofNat_lt_eight hk

theorem store64_inside (mem : UInt64 → UInt8) (v : UInt64) (ha : a - p < 8) :
    store64 mem p v a = leByte v.toNat (a - p).toNat := by
  rw [store64, if_pos ha]

theorem store64_outside (mem : UInt64 → UInt8) (v : UInt64) (ha : ¬ a - p < 8) :
    store64 mem p v a = mem a := by
  rw [store64, if_neg ha]

/-- A word is read as it was written. -/
@[simp] theorem load64_store64_self (mem : UInt64 → UInt8) (p v : UInt64) :
    load64 (store64 mem p v) p = v := by
  have hbytes : ∀ k < 8, store64 mem p v (p + .ofNat k) = leByte v.toNat k := by
    intro k hk
    have hk' : (UInt64.ofNat k).toNat = k := UInt64.toNat_ofNat_of_lt' (hk.trans (by decide))
    have hlt : p + .ofNat k - p < 8 := by
      rw [add_ofNat_sub]
      exact ofNat_lt_eight hk
    rw [store64_inside _ _ hlt, add_ofNat_sub, hk']
  have hv : v.toNat < 256 ^ 8 := v.toNat_lt
  rw [load64, leNat_congr hbytes, leNat_leByte, Nat.mod_eq_of_lt hv, UInt64.ofNat_toNat]

/-- Words that share no byte with the written one are kept. -/
theorem load64_store64_of_apart (mem : UInt64 → UInt8) (v : UInt64) (hpq : 8 ≤ q - p)
    (hqp : 8 ≤ p - q) : load64 (store64 mem p v) q = load64 mem q := by
  apply load64_congr
  intro a ha
  apply store64_outside
  rw [UInt64.lt_iff_toNat_lt, UInt64.toNat_sub] at ha ⊢
  rw [UInt64.le_iff_toNat_le, UInt64.toNat_sub] at hpq hqp
  have h8 : (8 : UInt64).toNat = 8 := rfl
  have hp := p.toNat_lt
  have hq := q.toNat_lt
  have ha' := a.toNat_lt
  omega

/-! ## Several words -/

@[simp] theorem words_length (mem : UInt64 → UInt8) (p : UInt64) (n : Nat) :
    (words mem p n).length = n := by
  induction n generalizing p with
  | zero => rfl
  | succ n ih => simp [words, ih]

/-- The words depend on their bytes only. The addresses wrap around, so the bytes are given by their
distance from `p`, which is less than `8 * n`. -/
theorem words_congr (hn : 8 * n < 2 ^ 64) (h : ∀ a, (a - p).toNat < 8 * n → mem a = mem' a) :
    words mem p n = words mem' p n := by
  induction n generalizing p with
  | zero => rfl
  | succ n ih =>
    have h8 : (8 : UInt64).toNat = 8 := rfl
    have hhead : load64 mem p = load64 mem' p := by
      apply load64_congr
      intro a ha
      apply h
      rw [UInt64.lt_iff_toNat_lt, h8] at ha
      omega
    have htail : words mem (p + 8) n = words mem' (p + 8) n := by
      apply ih (by omega)
      intro a ha
      apply h
      have hp := p.toNat_lt
      have ha' := a.toNat_lt
      rw [UInt64.toNat_sub, UInt64.toNat_add, h8] at ha
      rw [UInt64.toNat_sub]
      omega
    rw [words, words, hhead, htail]

theorem words_append (mem : UInt64 → UInt8) (p : UInt64) (m n : Nat) :
    words mem p (m + n) = words mem p m ++ words mem (p + 8 * .ofNat m) n := by
  induction m generalizing p with
  | zero => simp [words]
  | succ m ih =>
    have hstep : p + 8 + 8 * .ofNat m = p + 8 * .ofNat (m + 1) := by
      rw [UInt64.ofNat_add, UInt64.mul_add, UInt64.add_assoc, UInt64.add_comm 8]
      rfl
    rw [Nat.succ_add, words, ih, hstep, words, List.cons_append]

end KernelAarch64.Lib
