import KernelAarch64.Lib.Numeral

/-!
# Formatted output (`common/format.c`)

The calls of `put_char` are the list of the characters that they get.

An argument in a `va_list` is a slot of 64 bits, and a type that is shorter is in its low bits.
-/

namespace KernelAarch64.Common

open KernelAarch64.Lib

/-- What would be undefined behaviour. The functions stop there with a fault, so that a result about
what they print also says that nothing of the kind happens. -/
inductive FormatFault where
  /-- A read behind the end of the format string. -/
  | fmt
  /-- `va_arg` when there is no argument left. -/
  | arg
  /-- `%s` with an address where no string is. -/
  | str
  /-- An access outside of `digit` or `buf`. -/
  | buf
  /-- The loop has not come to its end. -/
  | loop
  deriving Repr, DecidableEq

/-- The characters of a string literal. -/
def chars (s : List Char) : List UInt8 := s.map Char.toUInt8

/-! ## Integers -/

/-- `digit` -/
def digit : List UInt8 :=
  chars ['0', '1', '2', '3', '4', '5', '6', '7', '8', '9', 'a', 'b', 'c', 'd', 'e', 'f'] ++ [0]

/-- `do *pos++ = digit[v % base]; while (v /= base);` with `room` bytes of the buffer left. `buf` is
what is below `pos`, the last byte first. -/
def fillBuf (base : UInt64) : Nat → UInt64 → List UInt8 → Except FormatFault (List UInt8)
  | 0, _, _ => .error .buf
  | room + 1, v, buf =>
    match digit[(v % base).toNat]? with
    | none => .error .buf
    | some c => if v / base = 0 then .ok (c :: buf) else fillBuf base room (v / base) (c :: buf)

/-- `do put_char(ctx, *(--pos)); while (pos != buf);` The digits are printed from the last one
stored to the first, and the loop looks at its condition after the first turn only: an empty buffer
is read in front of its start. -/
def emitBuf : List UInt8 → Except FormatFault (List UInt8)
  | [] => .error .buf
  | [c] => .ok [c]
  | c :: d :: buf => do
    let rest ← emitBuf (d :: buf)
    return c :: rest

/-- `sizeof(buf)` -/
def bufSize : Nat := 64

/-- `_print_int`. The number is negated as a 64-bit word when it is signed and negative, which is
right for the least value too, and its digits are stored from the lowest on. -/
def printInt (u : Int64) (base : UInt64) (isSigned : Bool) : Except FormatFault (List UInt8) := do
  let v := u.toUInt64
  let buf ← fillBuf base bufSize (if isSigned ∧ u < 0 then -v else v) []
  let digits ← emitBuf buf
  return (if isSigned ∧ u < 0 then chars ['-'] else []) ++ digits

/-- The types of the integer arguments. They differ in their width and in whether the promotion to
`i64` extends the sign. -/
inductive IntType where
  | u32
  | u64
  | i32
  | i64
  | usize
  | isize
  deriving Repr, DecidableEq

/-- `(i64)va_arg(arg, type)`: the low bits of the argument in the width of the type, widened to 64
bits with or without its sign. -/
def IntType.read : IntType → UInt64 → Int64
  | .u32, w => w.toUInt32.toUInt64.toInt64
  | .i32, w => w.toUInt32.toInt32.toInt64
  | .u64, w | .i64, w | .usize, w | .isize, w => w.toInt64

/-- The value of `va_arg(arg, type)` as a number. The code never has it; it is what the printed
digits are compared with. -/
def IntType.value : IntType → UInt64 → Int
  | .u32, w => w.toUInt32.toNat
  | .i32, w => w.toUInt32.toInt32.toInt
  | .u64, w | .usize, w => w.toNat
  | .i64, w | .isize, w => w.toInt64.toInt

/-- `_INT_CASE(ident, type, base, sign)`. The bounds on the base and the missing terminator are
facts about each of the nine uses of the macro, checked where the list is written down. -/
structure IntCase where
  ident : List UInt8
  type : IntType
  base : UInt64
  sign : Bool
  nul : 0 ∉ ident := by decide
  one_lt : 1 < base.toNat := by decide
  le : base.toNat ≤ 16 := by decide
  deriving DecidableEq

/-- The integer directives, in the order in which they are tried. The order matters in the source
because one `strncmp` after the other is made; no directive here is a prefix of another one. -/
def intCases : List IntCase :=
  [.mk (chars ['u']) .u32 10 false,
    .mk (chars ['l', 'l', 'u']) .u64 10 false,
    .mk (chars ['d']) .i32 10 true,
    .mk (chars ['l', 'l', 'd']) .i64 10 true,
    .mk (chars ['x']) .u32 16 false,
    .mk (chars ['l', 'l', 'x']) .u64 16 false,
    .mk (chars ['p']) .u64 16 false,
    .mk (chars ['z', 'u']) .usize 10 false,
    .mk (chars ['z', 'd']) .isize 10 true]

/-! ## Format strings

`mem` has the characters of the string at an address, up to its terminator. -/

/-- `*pos` -/
def readByte : List UInt8 → Except FormatFault UInt8
  | [] => .error .fmt
  | c :: _ => .ok c

/-- `strncmp(s1, s2, n)`: the difference of the first two bytes that differ, or `0` when the strings
end or `n` bytes are equal. Reading behind the list is a fault. -/
def strncmp : List UInt8 → List UInt8 → Nat → Except FormatFault Int
  | _, _, 0 => .ok 0
  | a :: s1, b :: s2, n + 1 =>
    if a ≠ b then .ok (a.toNat - b.toNat) else if a = 0 ∨ b = 0 then .ok 0 else strncmp s1 s2 n
  | _, _, _ + 1 => .error .fmt

/-- The first of the `_INT_CASE`s that fits. Each of them compares the rest of the format string
with its own name. -/
def findCase (pos : List UInt8) : List IntCase → Except FormatFault (Option IntCase)
  | [] => .ok none
  | d :: ds => do
    let r ← strncmp pos (d.ident ++ [0]) d.ident.length
    if r = 0 then return some d else findCase pos ds

/-- `va_arg(arg, type)`, with all of the slot. -/
def vaArg : List UInt64 → Except FormatFault (UInt64 × List UInt64)
  | [] => .error .arg
  | w :: arg => .ok (w, arg)

/-- What `%s` prints for the address `w`: `(null)` for `NULL`, and otherwise the string there. `mem`
says at which addresses there are strings. -/
def stringAt (mem : UInt64 → Option (List UInt8)) (w : UInt64) : Except FormatFault (List UInt8) :=
  if w = 0 then .ok (chars ['(', 'n', 'u', 'l', 'l', ')'])
  else
    match mem w with
    | none => .error .str
    | some s => .ok s

/-- A turn of the loop of `vformat`, after `c = *pos++`: what it prints, and `pos` and `arg`
behind it. -/
def vformatTurn (mem : UInt64 → Option (List UInt8)) (c : UInt8) (pos : List UInt8)
    (arg : List UInt64) : Except FormatFault (List UInt8 × List UInt8 × List UInt64) :=
  if c = '%'.toUInt8 then do
    let d ← readByte pos
    if d = '%'.toUInt8 then return (chars ['%'], pos.tail, arg)
    else if d = 'c'.toUInt8 then
      let a ← vaArg arg
      return ([a.1.toUInt8], pos.tail, a.2)
    else if d = 's'.toUInt8 then
      let a ← vaArg arg
      let s ← stringAt mem a.1
      return (s, pos.tail, a.2)
    else
      match ← findCase pos intCases with
      | some d =>
        let a ← vaArg arg
        let s ← printInt (d.type.read a.1) d.base d.sign
        return (s, pos.drop d.ident.length, a.2)
      | none => return ([c], pos, arg)
  else .ok ([c], pos, arg)

/-- The loop of `vformat`, with what it prints and the arguments that are left. It ends at the
terminator; `fuel` only bounds the turns, and `vformat` gives enough of it. -/
def vformatLoop (mem : UInt64 → Option (List UInt8)) :
    Nat → List UInt8 → List UInt64 → Except FormatFault (List UInt8 × List UInt64)
  | 0, _, _ => .error .loop
  | fuel + 1, pos, arg => do
    let c ← readByte pos
    if c = 0 then return ([], arg)
    else
      let t ← vformatTurn mem c pos.tail arg
      let r ← vformatLoop mem fuel t.2.1 t.2.2
      return (t.1 ++ r.1, r.2)

/-- `vformat(put_char, ctx, fmt, arg)`. Every turn goes on in the string. -/
def vformat (mem : UInt64 → Option (List UInt8)) (fmt : List UInt8) (arg : List UInt64) :
    Except FormatFault (List UInt8 × List UInt64) :=
  vformatLoop mem fmt.length fmt arg

/-! ## What is printed for an integer -/

/-- `digit[d]` -/
def digitChar (d : Nat) : UInt8 := digit.getD d 0

/-- What `_print_int` takes its argument for. -/
def intArg (u : Int64) (isSigned : Bool) : Int := if isSigned then u.toInt else u.toUInt64.toNat

/-- A sign where one is due, and the digits of the absolute value. -/
def Prints (base : Nat) (isSigned : Bool) (x : Int) (r : Except FormatFault (List UInt8)) : Prop :=
  ∃ ds, IsNumeral base ds x.natAbs ∧ ds.length ≤ bufSize ∧
    r = .ok ((if isSigned ∧ x < 0 then chars ['-'] else []) ++ ds.map digitChar)

theorem digit_getElem? {d : Nat} (hd : d < 16) : digit[d]? = some (digitChar d) := by
  have hlen : d < digit.length := hd.trans (by decide)
  rw [digitChar, List.getD_eq_getElem?_getD, List.getElem?_eq_getElem hlen, Option.getD_some]

/-- The loop of `_print_int` that fills the buffer stores the digits of the number, and ends before
the buffer is full. The induction is on the room that is left; the bound `base ^ room` goes down
with it. -/
theorem fillBuf_eq {base v : UInt64} {buf : List UInt8} {room : Nat} (hb : 1 < base.toNat)
    (hb16 : base.toNat ≤ 16) (hroom : 0 < room) (hv : v.toNat < base.toNat ^ room) :
    fillBuf base room v buf = .ok ((numeral base.toNat v.toNat).map digitChar ++ buf) := by
  induction room generalizing v buf with
  | zero => omega
  | succ room ih =>
    have hmod : (v % base).toNat = v.toNat % base.toNat := UInt64.toNat_mod v base
    have hdiv : (v / base).toNat = v.toNat / base.toNat := UInt64.toNat_div v base
    have hlt : v.toNat % base.toNat < base.toNat := Nat.mod_lt _ (by omega)
    rw [fillBuf, hmod, digit_getElem? (by omega)]
    have hzero : v / base = 0 ↔ v.toNat < base.toNat := by
      rw [← UInt64.toNat_inj, hdiv]
      exact Nat.div_eq_zero_iff_lt (by omega)
    by_cases hsmall : v.toNat < base.toNat
    · rw [numeral_of_lt hsmall, Nat.mod_eq_of_lt hsmall]
      exact if_pos (hzero.mpr hsmall)
    · have hlast := numeral_of_le hb (not_lt.mp hsmall)
      have hroom' : 0 < room := by
        rcases Nat.eq_zero_or_pos room with h | h
        · subst h
          rw [pow_one] at hv
          exact absurd hv hsmall
        · exact h
      have hv' : (v / base).toNat < base.toNat ^ room := by
        rw [hdiv]
        exact Nat.div_lt_of_lt_mul (pow_succ' base.toNat room ▸ hv)
      show (if v / base = 0 then _ else _) = _
      rw [if_neg (mt hzero.mp hsmall), ih hroom' hv', hlast, hdiv, List.map_append,
        List.append_assoc]
      rfl

theorem emitBuf_of_ne_nil {buf : List UInt8} (h : buf ≠ []) : emitBuf buf = .ok buf := by
  induction buf with
  | nil => exact absurd rfl h
  | cons c buf ih =>
    cases buf with
    | nil => rfl
    | cons d buf =>
      rw [emitBuf, ih (List.cons_ne_nil d buf)]
      rfl

theorem toInt_eq_cond (u : Int64) : u.toInt =
    if 2 * u.toUInt64.toNat < 2 ^ 64 then (u.toUInt64.toNat : Int)
    else u.toUInt64.toNat - (2 ^ 64 : Nat) :=
  BitVec.toInt_eq_toNat_cond u.toUInt64.toBitVec

theorem lt_zero_iff (u : Int64) : u < 0 ↔ u.toInt < 0 := Int64.lt_iff_toInt_lt

/-- The negation gives the absolute value, for the least number as well. -/
theorem toNat_magnitude (u : Int64) (isSigned : Bool) :
    (if isSigned ∧ u < 0 then -u.toUInt64 else u.toUInt64).toNat = (intArg u isSigned).natAbs := by
  have hneg : (-u.toUInt64).toNat = (2 ^ 64 - u.toUInt64.toNat) % 2 ^ 64 :=
    BitVec.toNat_neg u.toUInt64.toBitVec
  have hlt : u.toUInt64.toNat < 2 ^ 64 := u.toUInt64.toBitVec.isLt
  have hcond := toInt_eq_cond u
  cases isSigned with
  | false => simp [intArg]
  | true =>
    rw [intArg, if_pos rfl]
    by_cases hu : u < 0
    · rw [if_pos ⟨rfl, hu⟩, hneg]
      rw [lt_zero_iff] at hu
      split at hcond <;> omega
    · rw [if_neg (fun h => hu h.2)]
      rw [lt_zero_iff] at hu
      split at hcond <;> omega

theorem printInt_eq {u : Int64} {base : UInt64} {isSigned : Bool} (hb : 1 < base.toNat)
    (hb16 : base.toNat ≤ 16) : printInt u base isSigned = .ok
      ((if isSigned ∧ u < 0 then chars ['-'] else []) ++
        (numeral base.toNat (intArg u isSigned).natAbs).map digitChar) := by
  have hv : ∀ v : UInt64, v.toNat < base.toNat ^ bufSize := fun v =>
    v.toBitVec.isLt.trans_le (Nat.pow_le_pow_left hb 64)
  have hne := (isNumeral_numeral hb (intArg u isSigned).natAbs).ne_nil
  rw [printInt, fillBuf_eq hb hb16 (by decide) (hv _), toNat_magnitude, List.append_nil]
  simp only [bind_pure_comp]
  show (emitBuf _).map _ = _
  rw [emitBuf_of_ne_nil (mt List.map_eq_nil_iff.mp hne)]
  rfl

theorem printInt_prints (u : Int64) {base : UInt64} (isSigned : Bool) (hb : 1 < base.toNat)
    (hb16 : base.toNat ≤ 16) :
    Prints base.toNat isSigned (intArg u isSigned) (printInt u base isSigned) := by
  have hsign : (isSigned = true ∧ u < 0) = (isSigned = true ∧ intArg u isSigned < 0) := by
    cases isSigned with
    | false => simp
    | true => simp [intArg, lt_zero_iff]
  refine ⟨_, isNumeral_numeral hb _, length_numeral_le hb (by decide) ?_, ?_⟩
  · rw [← toNat_magnitude]
    exact (UInt64.toNat_lt _).trans_le (Nat.pow_le_pow_left hb 64)
  · rw [printInt_eq hb hb16]
    simp only [hsign]

/-- The conversions to `i64` keep the value. -/
theorem IntCase.intArg_read {d : IntCase} (hd : d ∈ intCases) (w : UInt64) :
    intArg (d.type.read w) d.sign = d.type.value w := by
  simp only [intCases, List.mem_cons, List.not_mem_nil, or_false] at hd
  rcases hd with rfl | rfl | rfl | rfl | rfl | rfl | rfl | rfl | rfl <;>
    simp [intArg, IntType.read, IntType.value]

/-- Every integer is printed with its sign and its digits, within the buffer. -/
theorem printInt_round_trip :
    (∀ (u : Int64) (base : UInt64) (isSigned : Bool), base = 10 ∨ base = 16 →
      Prints base.toNat isSigned (intArg u isSigned) (printInt u base isSigned)) ∧
    ∀ d ∈ intCases, ∀ w : UInt64,
      Prints d.base.toNat d.sign (d.type.value w) (printInt (d.type.read w) d.base d.sign) := by
  refine ⟨?_, ?_⟩
  · intro u base isSigned hbase
    rcases hbase with rfl | rfl
    · exact printInt_prints u isSigned (by decide) (by decide)
    · exact printInt_prints u isSigned (by decide) (by decide)
  · intro d hd w
    rw [← d.intArg_read hd]
    exact printInt_prints _ _ d.one_lt d.le

/-- The least number. -/
theorem printInt_round_trip_least :
    Prints 10 true (-9223372036854775808) (printInt Int64.minValue 10 true) ∧
    Prints 10 true (-2147483648) (printInt (IntType.i32.read 0x80000000) 10 true) :=
  ⟨printInt_round_trip.1 Int64.minValue 10 true (.inl rfl),
    printInt_round_trip.2 (.mk (chars ['d']) .i32 10 true) (by decide) 0x80000000⟩

end KernelAarch64.Common
