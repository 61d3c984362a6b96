import KernelAarch64.Common.Format.Items
import Mathlib.Logic.Function.Basic

/-!
# The buffer of `_print_int`

The digits of a number go through `buf`, which is `static`: all callers share it. Step by step,
`vformat` is a list of accesses to the buffer and of calls of `put_char`, and whoever runs these
alone prints what `vformat` prints, whatever was in the buffer before.

`vformatOps_writes` is the main result: the steps of `vformat` put out what it prints, whatever is
in the buffer before. It is what `Core.Console.Messages` needs, where the steps of several CPUs are
interleaved and a lock keeps others from the buffer.
-/

namespace KernelAarch64.Common

/-- A step of `vformat` that others can see: a character that is put, and each access to the static
buffer. What lies between, the scan of the format string and the arithmetic, touches nothing that is
shared. -/
inductive FormatOp where
  /-- `put_char(ctx, c)` -/
  | put (c : UInt8)
  /-- `buf[pos] = c` -/
  | store (pos : Nat) (c : UInt8)
  /-- `put_char(ctx, buf[pos])` -/
  | putBuf (pos : Nat)
  deriving Repr, DecidableEq

/-- `do *pos++ = digit[v % base]; while (v /= base);` from `buf + pos`, with the end of the
digits. -/
def storeOps (base : UInt64) : Nat → Nat → UInt64 → Except FormatFault (List FormatOp × Nat)
  | 0, _, _ => .error .buf
  | room + 1, pos, v =>
    match digit[(v % base).toNat]? with
    | none => .error .buf
    | some c =>
      if v / base = 0 then .ok ([.store pos c], pos + 1)
      else do
        let r ← storeOps base room (pos + 1) (v / base)
        return (.store pos c :: r.1, r.2)

/-- `do put_char(ctx, *(--pos)); while (pos != buf);` from `buf + pos`. -/
def loadOps : Nat → List FormatOp
  | 0 => []
  | pos + 1 => .putBuf pos :: loadOps pos

/-- `_print_int` as steps: the sign is put first, then the digits go into the buffer, and then they
are put from there, the last one first. -/
def printIntOps (u : Int64) (base : UInt64) (isSigned : Bool) :
    Except FormatFault (List FormatOp) := do
  let v := u.toUInt64
  let r ← storeOps base bufSize 0 (if isSigned ∧ u < 0 then -v else v)
  return (if isSigned ∧ u < 0 then [.put '-'.toUInt8] else []) ++ (r.1 ++ loadOps r.2)

namespace Item

variable (mem : UInt64 → Option (List UInt8))

/-- The steps of an item, with the arguments that are left. Only integers go through the buffer. -/
def ops : Item → List UInt64 → Except FormatFault (List FormatOp × List UInt64)
  | .text c, arg => .ok ([.put c], arg)
  | .percent, arg => .ok ([.put '%'.toUInt8], arg)
  | .char, arg => do
    let a ← vaArg arg
    return ([.put a.1.toUInt8], a.2)
  | .string, arg => do
    let a ← vaArg arg
    let s ← stringAt mem a.1
    return (s.map .put, a.2)
  | .int d, arg => do
    let a ← vaArg arg
    let s ← printIntOps (d.type.read a.1) d.base d.sign
    return (s, a.2)

/-- The steps of items, one item after the other. A fault of one item is a fault of the whole, and
then no step is taken here at all. -/
def opsAll : List Item → List UInt64 → Except FormatFault (List FormatOp × List UInt64)
  | [], arg => .ok ([], arg)
  | it :: its, arg => do
    let t ← it.ops mem arg
    let r ← opsAll its t.2
    return (t.1 ++ r.1, r.2)

end Item

/-! ## Steps alone

What steps do when nobody else takes one in between. -/

/-- The buffer after a step. -/
def FormatOp.buf (b : Nat → UInt8) : FormatOp → Nat → UInt8
  | .store pos c => Function.update b pos c
  | .put _ | .putBuf _ => b

/-- The characters that a step puts out, where `b` is the buffer before it. -/
def FormatOp.out (b : Nat → UInt8) : FormatOp → List UInt8
  | .put c => [c]
  | .store _ _ => []
  | .putBuf pos => [b pos]

/-- The characters that steps put out, without other steps in between. -/
def opsOut : List FormatOp → (Nat → UInt8) → List UInt8
  | [], _ => []
  | op :: ops, b => op.out b ++ opsOut ops (op.buf b)

/-- Steps that put out `text` whatever is in the buffer. -/
def Writes (ops : List FormatOp) (text : List UInt8) : Prop := ∀ b, opsOut ops b = text

variable {ops ops' : List FormatOp} {text text' : List UInt8} {b : Nat → UInt8}

/-- Steps after others, with the buffer that those leave. -/
theorem opsOut_append (ops ops' : List FormatOp) (b : Nat → UInt8) :
    opsOut (ops ++ ops') b = opsOut ops b ++ opsOut ops' (ops.foldl (fun b op => op.buf b) b) := by
  induction ops generalizing b with
  | nil => rfl
  | cons op ops ih => rw [List.cons_append, opsOut, ih, opsOut, List.append_assoc, List.foldl_cons]

theorem Writes.append (h : Writes ops text) (h' : Writes ops' text') :
    Writes (ops ++ ops') (text ++ text') := by
  intro b
  rw [opsOut_append, h, h']

theorem writes_nil : Writes [] [] := fun _ => rfl

/-- Characters that are put out directly. -/
theorem writes_put (s : List UInt8) : Writes (s.map .put) s := by
  intro b
  induction s with
  | nil => rfl
  | cons c s ih =>
    rw [List.map_cons, opsOut]
    exact congrArg (c :: ·) ih

/-! ## Numbers

The digits are stored from the lowest on, and put out from the last one stored. -/

/-- The buffer below `pos`, the last byte first. -/
def below (b : Nat → UInt8) (pos : Nat) : List UInt8 := (List.range pos).reverse.map b

/-- The loop that prints reads the buffer backwards. -/
theorem opsOut_loadOps (b : Nat → UInt8) (pos : Nat) : opsOut (loadOps pos) b = below b pos := by
  induction pos with
  | zero => rfl
  | succ pos ih =>
    rw [loadOps, opsOut, below, List.range_succ, List.reverse_append]
    exact congrArg (b pos :: ·) ih

/-- Only the bytes below `pos` matter. -/
theorem below_congr {b b' : Nat → UInt8} {pos : Nat} (h : ∀ i < pos, b i = b' i) :
    below b pos = below b' pos := by
  apply List.map_congr_left
  intro i hi
  exact h i (by simpa using hi)

theorem below_succ (b : Nat → UInt8) (pos : Nat) (c : UInt8) :
    below (Function.update b pos c) (pos + 1) = c :: below b pos := by
  have htail : below (Function.update b pos c) pos = below b pos :=
    below_congr fun i hi => Function.update_of_ne (Nat.ne_of_lt hi) _ _
  rw [below, List.range_succ, List.reverse_append, List.map_append, ← below, htail]
  simp

/-- The loop that fills the buffer fills it as `fillBuf` says, and prints nothing. The digits below
the position are those stored so far, which is the invariant of the loop. -/
theorem storeOps_eq {base : UInt64} {room : Nat} {v : UInt64} {buf digits : List UInt8} (pos : Nat)
    (h : fillBuf base room v buf = .ok digits) :
    ∃ ops pos', storeOps base room pos v = .ok (ops, pos') ∧
      ∀ b, below b pos = buf → opsOut ops b = [] ∧
        below (ops.foldl (fun b op => op.buf b) b) pos' = digits := by
  induction room generalizing v buf pos with
  | zero => cases h
  | succ room ih =>
    rw [fillBuf] at h
    rw [storeOps]
    cases hc : digit[(v % base).toNat]? with
    | none =>
      rw [hc] at h
      cases h
    | some c =>
      rw [hc] at h
      simp only at h ⊢
      by_cases hv : v / base = 0
      · rw [if_pos hv] at h ⊢
        refine ⟨_, _, rfl, ?_⟩
        intro b hb
        refine ⟨rfl, ?_⟩
        rw [← Except.ok.inj h, ← hb]
        exact below_succ b pos c
      · rw [if_neg hv] at h ⊢
        obtain ⟨ops, pos', hops, hout⟩ := ih (pos + 1) h
        refine ⟨.store pos c :: ops, pos', ?_, ?_⟩
        · rw [hops]
          rfl
        · intro b hb
          have hnext : below (Function.update b pos c) (pos + 1) = c :: buf := by
            rw [below_succ, hb]
          exact hout _ hnext

/-- What is printed is what was stored. -/
theorem emitBuf_ok {buf s : List UInt8} (h : emitBuf buf = .ok s) : s = buf := by
  cases buf with
  | nil => cases h
  | cons c buf =>
    rw [emitBuf_of_ne_nil (List.cons_ne_nil c buf)] at h
    exact (Except.ok.inj h).symm

theorem formatBind_ok {α β : Type} {x : Except FormatFault α} {k : α → Except FormatFault β} {b : β}
    (h : x >>= k = .ok b) : ∃ a, x = .ok a ∧ k a = .ok b := by
  cases x with
  | error e => cases h
  | ok a => exact ⟨a, rfl, h⟩

/-- What `_print_int` prints does not depend on what is in the buffer before. -/
theorem printIntOps_writes {u : Int64} {base : UInt64} {isSigned : Bool} {s : List UInt8}
    (h : printInt u base isSigned = .ok s) :
    ∃ ops, printIntOps u base isSigned = .ok ops ∧ Writes ops s := by
  obtain ⟨buf, hfill, hrest⟩ := formatBind_ok h
  obtain ⟨t, hemit, hret⟩ := formatBind_ok hrest
  obtain rfl : t = buf := emitBuf_ok hemit
  obtain ⟨ops, pos, hops, hout⟩ := storeOps_eq 0 hfill
  refine ⟨(if isSigned ∧ u < 0 then [.put '-'.toUInt8] else []) ++ (ops ++ loadOps pos), ?_, ?_⟩
  · show (storeOps base bufSize 0 _ >>= _) = _
    rw [hops]
    rfl
  · rw [← Except.ok.inj hret]
    apply Writes.append
    · split
      · exact writes_put (chars ['-'])
      · exact writes_nil
    · intro b
      obtain ⟨hnone, hbelow⟩ := hout b rfl
      rw [opsOut_append, hnone, opsOut_loadOps, hbelow]
      rfl

/-! ## Items

Only a number uses the buffer, and it reads nothing there that it has not stored before. -/

namespace Item

variable {mem : UInt64 → Option (List UInt8)} {it : Item} {its : List Item}
  {arg rest : List UInt64} {s : List UInt8}

/-- Step by step, an item puts out what it prints, whatever the buffer holds at the beginning. For
an integer the digits are stored before they are read, so the old content does not matter. -/
theorem ops_writes (h : it.put mem arg = .ok (s, rest)) :
    ∃ ops, it.ops mem arg = .ok (ops, rest) ∧ Writes ops s := by
  cases it with
  | text c =>
    cases h
    exact ⟨_, rfl, writes_put [c]⟩
  | percent =>
    cases h
    exact ⟨_, rfl, writes_put (chars ['%'])⟩
  | char =>
    obtain ⟨a, harg, hret⟩ := formatBind_ok h
    cases hret
    refine ⟨[.put a.1.toUInt8], ?_, writes_put [a.1.toUInt8]⟩
    rw [ops, harg]
    rfl
  | string =>
    obtain ⟨a, harg, hrest⟩ := formatBind_ok h
    obtain ⟨t, hstr, hret⟩ := formatBind_ok hrest
    cases hret
    refine ⟨s.map .put, ?_, writes_put s⟩
    rw [ops, harg]
    show (stringAt mem a.1 >>= _) = _
    rw [hstr]
    rfl
  | int d =>
    obtain ⟨a, harg, hrest⟩ := formatBind_ok h
    obtain ⟨t, hint, hret⟩ := formatBind_ok hrest
    cases hret
    obtain ⟨os, hos, hwrites⟩ := printIntOps_writes hint
    refine ⟨os, ?_, hwrites⟩
    rw [ops, harg]
    show (printIntOps _ _ _ >>= _) = _
    rw [hos]
    rfl

/-- Step by step, items put out what they print: the steps of the buffer exist whenever the items
print at all, and the bytes that reach `put_char` are the ones of the string. -/
theorem opsAll_writes (h : putAll mem its arg = .ok (s, rest)) :
    ∃ ops, opsAll mem its arg = .ok (ops, rest) ∧ Writes ops s := by
  induction its generalizing arg s with
  | nil =>
    cases h
    exact ⟨[], rfl, writes_nil⟩
  | cons it its ih =>
    obtain ⟨t, hput, hrest⟩ := formatBind_ok h
    obtain ⟨r, hall, hret⟩ := formatBind_ok hrest
    cases hret
    obtain ⟨os, hos, hwrites⟩ := ops_writes hput
    obtain ⟨os', hos', hwrites'⟩ := ih hall
    refine ⟨os ++ os', ?_, hwrites.append hwrites'⟩
    rw [opsAll, hos]
    show (opsAll mem its t.2 >>= _) = _
    rw [hos']
    rfl

end Item

/-- The steps of `vformat(put_char, ctx, fmt, arg)`, where `fmt` has no terminator. They are those
of the items of the format string. -/
def vformatOps (mem : UInt64 → Option (List UInt8)) (fmt : List UInt8) (arg : List UInt64) :
    Except FormatFault (List FormatOp) := do
  let r ← Item.opsAll mem (scan fmt) arg
  return r.1

/-- They put out what `vformat` prints. -/
theorem vformatOps_writes {mem : UInt64 → Option (List UInt8)} {fmt s : List UInt8}
    {arg rest : List UInt64} (hfmt : 0 ∉ fmt) (h : vformat mem (fmt ++ [0]) arg = .ok (s, rest)) :
    ∃ ops, vformatOps mem fmt arg = .ok ops ∧ Writes ops s := by
  rw [vformat_eq hfmt] at h
  obtain ⟨ops, hops, hwrites⟩ := Item.opsAll_writes h
  refine ⟨ops, ?_, hwrites⟩
  rw [vformatOps, hops]
  rfl

end KernelAarch64.Common
