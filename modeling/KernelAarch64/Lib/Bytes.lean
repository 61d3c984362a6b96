import Mathlib.Tactic.Ring

/-!
# Little-endian numbers

A number stored in memory is read through a byte function: `leNat w f` is the number whose `w`
bytes, lowest first, are `f 0, …, f (w - 1)`, and `leByte n k` is byte `k` of `n`. The two are
inverse to each other on numbers that fit (`leNat_leByte`) and on byte functions
(`leByte_leNat`), which is all a struct layout has to know about its integer fields.
-/

namespace KernelAarch64.Lib

/-- The number whose `w` little-endian bytes are `f 0, …, f (w - 1)`. -/
def leNat : Nat → (Nat → UInt8) → Nat
  | 0, _ => 0
  | w + 1, f => (f 0).toNat + 256 * leNat w (fun k => f (k + 1))

/-- Byte `k` of the little-endian representation of `n`. -/
def leByte (n k : Nat) : UInt8 := UInt8.ofNat (n / 256 ^ k)

theorem leNat_congr {w : Nat} {f g : Nat → UInt8} (h : ∀ k < w, f k = g k) :
    leNat w f = leNat w g := by
  induction w generalizing f g with
  | zero => rfl
  | succ w ih =>
    have htail : leNat w (fun k => f (k + 1)) = leNat w (fun k => g (k + 1)) :=
      ih fun k hk => h (k + 1) (by omega)
    simp only [leNat, h 0 (by omega), htail]

theorem leNat_lt (w : Nat) (f : Nat → UInt8) : leNat w f < 256 ^ w := by
  induction w generalizing f with
  | zero => simp [leNat]
  | succ w ih =>
    have h0 : (f 0).toNat < 256 := (f 0).toNat_lt
    have ht := ih fun k => f (k + 1)
    simp only [leNat, pow_succ]
    omega

theorem leByte_zero (n : Nat) : (leByte n 0).toNat = n % 256 := by
  simp [leByte]

theorem leByte_succ (n k : Nat) : leByte n (k + 1) = leByte (n / 256) k := by
  simp only [leByte, pow_succ']
  rw [Nat.div_div_eq_div_mul]

/-- Writing a number and reading it back keeps it, up to the width of the field. -/
theorem leNat_leByte (w n : Nat) : leNat w (leByte n) = n % 256 ^ w := by
  induction w generalizing n with
  | zero => simp [leNat, Nat.mod_one]
  | succ w ih =>
    have htail : (fun k => leByte n (k + 1)) = leByte (n / 256) :=
      funext fun k => leByte_succ n k
    rw [leNat, htail, ih, leByte_zero, pow_succ', Nat.mod_mul]

/-- Reading a number and writing it back keeps every byte, so that the two are inverse where the
width is the same. -/
theorem leByte_leNat {w k : Nat} (f : Nat → UInt8) (hk : k < w) :
    leByte (leNat w f) k = f k := by
  induction w generalizing f k with
  | zero => omega
  | succ w ih =>
    have h0 : (f 0).toNat < 256 := (f 0).toNat_lt
    cases k with
    | zero =>
      apply UInt8.toNat_inj.mp
      rw [leByte_zero, leNat]
      omega
    | succ k =>
      have hdiv : leNat (w + 1) f / 256 = leNat w (fun k => f (k + 1)) := by
        rw [leNat]
        omega
      rw [leByte_succ, hdiv, ih _ (by omega)]

/-- A field of `w` bytes holds a number up to its width. -/
theorem leByte_mod {w k : Nat} (n : Nat) (hk : k < w) : leByte (n % 256 ^ w) k = leByte n k := by
  rw [← leNat_leByte, leByte_leNat _ hk]

/-! ## Bits -/

/-- Bit `j` of byte `k` is bit `8 * k + j`. -/
theorem testBit_leByte (n k : Nat) {j : Nat} (hj : j < 8) :
    (leByte n k).toNat.testBit j = n.testBit (8 * k + j) := by
  rw [leByte, UInt8.toNat_ofNat', show (256 : Nat) = 2 ^ 8 from rfl, ← pow_mul,
    Nat.testBit_mod_two_pow, Nat.testBit_div_two_pow]
  simp [hj, Nat.add_comm]

/-- Bit `i` of a number is bit `i % 8` of its byte `i / 8`. -/
theorem testBit_leNat {w i : Nat} (f : Nat → UInt8) (hi : i < 8 * w) :
    (leNat w f).testBit i = (f (i / 8)).toNat.testBit (i % 8) := by
  have hbyte : i / 8 < w := by omega
  rw [← leByte_leNat f hbyte, testBit_leByte _ _ (Nat.mod_lt _ (by omega)), Nat.div_add_mod]

/-- Two bytes with the same bits are equal. -/
theorem byte_ext {a b : UInt8} (h : ∀ j < 8, a.toNat.testBit j = b.toNat.testBit j) : a = b := by
  apply UInt8.toNat_inj.mp
  apply Nat.eq_of_testBit_eq
  intro j
  by_cases hj : j < 8
  · exact h j hj
  · have hle : 2 ^ 8 ≤ 2 ^ j := Nat.pow_le_pow_right (by omega) (by omega)
    rw [Nat.testBit_lt_two_pow (lt_of_lt_of_le a.toNat_lt hle),
      Nat.testBit_lt_two_pow (lt_of_lt_of_le b.toNat_lt hle)]

/-! ## Integer fields -/

/-- The `u16` at offset `i`. -/
def leU16 (f : Nat → UInt8) (i : Nat) : UInt16 := .ofNat (leNat 2 fun k => f (i + k))

/-- The `u32` at offset `i`. -/
def leU32 (f : Nat → UInt8) (i : Nat) : UInt32 := .ofNat (leNat 4 fun k => f (i + k))

theorem leU16_congr {f g : Nat → UInt8} {i : Nat} (h : ∀ k < 2, f (i + k) = g (i + k)) :
    leU16 f i = leU16 g i := by
  rw [leU16, leNat_congr h, leU16]

theorem leU32_congr {f g : Nat → UInt8} {i : Nat} (h : ∀ k < 4, f (i + k) = g (i + k)) :
    leU32 f i = leU32 g i := by
  rw [leU32, leNat_congr h, leU32]

/-- The bytes of a `u16` are read back as that number. -/
theorem leU16_of_bytes {f : Nat → UInt8} {i : Nat} {v : UInt16}
    (h : ∀ k < 2, f (i + k) = leByte v.toNat k) : leU16 f i = v := by
  have hlt : v.toNat < 256 ^ 2 := v.toNat_lt
  rw [leU16, leNat_congr h, leNat_leByte, Nat.mod_eq_of_lt hlt, UInt16.ofNat_toNat]

/-- A `u16` that was read is written back as its bytes. -/
theorem leByte_leU16 (f : Nat → UInt8) (i : Nat) {k : Nat} (hk : k < 2) :
    leByte (leU16 f i).toNat k = f (i + k) := by
  have hlt : leNat 2 (fun k => f (i + k)) < 2 ^ 16 := leNat_lt 2 _
  rw [leU16, UInt16.toNat_ofNat', Nat.mod_eq_of_lt hlt, leByte_leNat _ hk]

/-- The bytes of a `u32` are read back as that number. -/
theorem leU32_of_bytes {f : Nat → UInt8} {i : Nat} {v : UInt32}
    (h : ∀ k < 4, f (i + k) = leByte v.toNat k) : leU32 f i = v := by
  have hlt : v.toNat < 256 ^ 4 := v.toNat_lt
  rw [leU32, leNat_congr h, leNat_leByte, Nat.mod_eq_of_lt hlt, UInt32.ofNat_toNat]

end KernelAarch64.Lib
