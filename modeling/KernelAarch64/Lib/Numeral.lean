import Mathlib.Data.Nat.Digits.Lemmas

/-!
# Numerals

The digits of a number as one writes them, the highest first. Zero has a digit, too.
-/

namespace KernelAarch64.Lib

variable {b n k : Nat}

/-- The digits of `n` in base `b`. -/
def numeral (b n : Nat) : List Nat := if n = 0 then [0] else (Nat.digits b n).reverse

/-- `ds` are digits of `n` in base `b`, without a superfluous zero, the most significant one first.
Zero itself is the one digit `0`. -/
structure IsNumeral (b : Nat) (ds : List Nat) (n : Nat) : Prop where
  ne_nil : ds ≠ []
  lt : ∀ d ∈ ds, d < b
  lead : ds.head? = some 0 → ds = [0]
  value : Nat.ofDigits b ds.reverse = n

theorem numeral_of_lt (hn : n < b) : numeral b n = [n] := by
  rw [numeral]
  split
  · next hzero => rw [hzero]
  · next hzero => rw [Nat.digits_of_lt b n hzero hn, List.reverse_singleton]

theorem numeral_of_le (hb : 1 < b) (hn : b ≤ n) : numeral b n = numeral b (n / b) ++ [n % b] := by
  have hpos : 0 < n := by omega
  have hdiv : n / b ≠ 0 := (Nat.div_pos hn (by omega)).ne'
  rw [numeral, if_neg hpos.ne', numeral, if_neg hdiv, Nat.digits_def' hb hpos, List.reverse_cons]

theorem isNumeral_numeral (hb : 1 < b) (n : Nat) : IsNumeral b (numeral b n) n := by
  by_cases hn : n = 0
  · subst hn
    rw [numeral, if_pos rfl]
    refine ⟨List.cons_ne_nil 0 [], ?_, fun _ => rfl, rfl⟩
    intro d hd
    rw [List.mem_singleton.mp hd]
    omega
  · have hne : Nat.digits b n ≠ [] := Nat.digits_ne_nil_iff_ne_zero.mpr hn
    rw [numeral, if_neg hn]
    constructor
    case ne_nil => exact List.reverse_ne_nil_iff.mpr hne
    case lt => exact fun d hd => Nat.digits_lt_base hb (List.mem_reverse.mp hd)
    case lead =>
      intro hlead
      rw [List.head?_reverse, List.getLast?_eq_some_getLast hne] at hlead
      exact absurd (Option.some.inj hlead) (Nat.getLast_digit_ne_zero b hn)
    case value => rw [List.reverse_reverse, Nat.ofDigits_digits]

/-- A number below `b ^ k` has at most `k` digits. -/
theorem length_numeral_le (hb : 1 < b) (hk : 0 < k) (hn : n < b ^ k) :
    (numeral b n).length ≤ k := by
  rw [numeral]
  split
  · exact hk
  · rw [List.length_reverse]
    exact (Nat.digits_length_le_iff hb n).mpr hn

end KernelAarch64.Lib
