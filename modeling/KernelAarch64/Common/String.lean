import Mathlib.Logic.Basic

/-!
# Strings (`common/string.c`)

A `const char *` is the list of the bytes at it, with the terminator and whatever follows left out:
reading past the end of the list gives `'\0'`. The functions here stop at the terminator, or compare
no byte behind it.
-/

namespace KernelAarch64

/-- `strlen` -/
def strlen : List UInt8 → Nat
  | [] => 0
  | c :: s => if c = 0 then 0 else strlen s + 1

/-- `strncpy(dest, src, n)`: the `n` bytes that `dest` receives. Behind the end of `src` there are
zeros, and where `src` has `n` bytes or more there is no terminator. -/
def strncpy : List UInt8 → Nat → List UInt8
  | _, 0 => []
  | src, n + 1 =>
    if src.headD 0 = 0 then List.replicate (n + 1) 0 else src.headD 0 :: strncpy src.tail n

/-- `memcmp(s1, s2, n)`: the difference of the first two bytes that differ, as `unsigned char`, or
`0`. -/
def memcmp : List UInt8 → List UInt8 → Nat → Int
  | _, _, 0 => 0
  | s1, s2, n + 1 =>
    if s1.headD 0 ≠ s2.headD 0 then (s1.headD 0).toNat - (s2.headD 0).toNat
    else memcmp s1.tail s2.tail n

variable {s s' : List UInt8} {n : Nat}

theorem strlen_eq_length (hs : 0 ∉ s) : strlen s = s.length := by
  induction s with
  | nil => rfl
  | cons c s ih =>
    simp only [List.mem_cons, not_or] at hs
    rw [strlen, if_neg (Ne.symm hs.1), ih hs.2, List.length_cons]

/-- A string that fits is padded with zeros up to the whole length, as the library function of this
name does. A string of exactly `n` bytes gets no terminator. -/
theorem strncpy_eq_append (hs : 0 ∉ s) (hn : s.length ≤ n) :
    strncpy s n = s ++ List.replicate (n - s.length) 0 := by
  induction n generalizing s with
  | zero =>
    rw [List.eq_nil_of_length_eq_zero (Nat.le_zero.mp hn)]
    rfl
  | succ n ih =>
    cases s with
    | nil => rfl
    | cons c s =>
      simp only [List.mem_cons, not_or] at hs
      rw [strncpy, List.headD_cons, if_neg (Ne.symm hs.1), List.tail_cons,
        ih hs.2 (Nat.le_of_succ_le_succ hn), List.length_cons, Nat.add_sub_add_right,
        List.cons_append]

@[simp] theorem length_strncpy (s : List UInt8) (n : Nat) : (strncpy s n).length = n := by
  induction n generalizing s with
  | zero => rfl
  | succ n ih =>
    rw [strncpy]
    split
    · exact List.length_replicate
    · rw [List.length_cons, ih]

/-- The string at the beginning of a padded array. -/
theorem takeWhile_strncpy (hs : 0 ∉ s) (hn : s.length ≤ n) :
    (strncpy s n).takeWhile (· ≠ 0) = s := by
  have hall : ∀ c ∈ s, decide (c ≠ 0) = true := by
    intro c hc
    apply decide_eq_true
    rintro rfl
    exact hs hc
  rw [strncpy_eq_append hs hn, List.takeWhile_append_of_pos hall]
  cases n - s.length <;> simp [List.replicate_succ]

/-- Comparing one byte more than a string has compares its end, too: `s'` is an array that may have
no terminator, but is longer than the string. -/
theorem memcmp_eq_zero_iff (hs : 0 ∉ s) (hn : s.length < s'.length) :
    memcmp s s' (s.length + 1) = 0 ↔ s'.takeWhile (· ≠ 0) = s := by
  have hne : ∀ {a b : UInt8}, a ≠ b → (a.toNat : Int) - b.toNat ≠ 0 := by
    intro a b hab hzero
    exact hab (UInt8.toNat_inj.mp (by omega))
  induction s generalizing s' with
  | nil =>
    cases s' with
    | nil => simp at hn
    | cons b s' =>
      by_cases hb : b = 0
      · simp [memcmp, hb]
      · rw [memcmp, List.headD_cons, List.headD_nil, if_pos (Ne.symm hb)]
        exact iff_of_false (hne (Ne.symm hb)) (by simp [hb])
  | cons a s ih =>
    simp only [List.mem_cons, not_or] at hs
    cases s' with
    | nil => simp at hn
    | cons b s' =>
      rw [List.length_cons, memcmp, List.headD_cons, List.headD_cons]
      by_cases hab : a = b
      · subst hab
        rw [if_neg (not_not.mpr rfl), List.tail_cons, List.tail_cons,
          List.takeWhile_cons_of_pos (by simpa using Ne.symm hs.1), List.cons.injEq]
        exact (ih hs.2 (Nat.lt_of_succ_lt_succ hn)).trans (by simp)
      · rw [if_pos hab]
        apply iff_of_false (hne hab)
        by_cases hb : b = 0
        · simp [hb]
        · rw [List.takeWhile_cons_of_pos (by simpa using hb), List.cons.injEq]
          exact fun h => hab h.1.symm

end KernelAarch64
