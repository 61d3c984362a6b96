import KernelAarch64.Lib.Words
import KernelAarch64.Lib.Writes
import Mathlib.Data.List.Nodup
import Mathlib.Data.Set.Lattice
import Mathlib.Order.CompletePartialOrder

/-!
# AArch64 code that saves and restores registers

The instructions of EL1 that move registers to and from the stack, and what a straight line of them
does. `Within W R` is about code that writes in a set `W` of addresses and reads in a set `R`: such
code does the same whatever the rest of the memory is, and keeps the rest, so that it may be taken
as one step whatever other CPUs do elsewhere.

An instruction is given by what it stores, what it loads and the registers after it, so that the two
facts about `Within` are proved once for all instructions (`exec_outside`, `exec_congr`) and carry
over to a list (`execAll_outside`, `execAll_congr`). For pushes and pops there are closed forms:
`execAll_pushes` and `execAll_pops`.
-/

namespace KernelAarch64.Lib

/-- The registers that code of EL1 sees. `sp` is `sp_el1`; `pc` and `pstate` are where control goes
and in which state when the code is left by `ret` or `eret`. -/
structure Cpu where
  x : Nat → UInt64
  sp : UInt64
  spEl0 : UInt64
  elrEl1 : UInt64
  spsrEl1 : UInt64
  pc : UInt64
  pstate : UInt64

/-- The instructions, with the numbers of the registers: those that a context switch and the save
and restore of a trap frame are made of. -/
inductive Instr where
  /-- `stp xt₁, xt₂, [sp, #-16]!` -/
  | stp (t₁ t₂ : Nat)
  /-- `ldp xt₁, xt₂, [sp], #16` -/
  | ldp (t₁ t₂ : Nat)
  /-- `str xt, [xn]` -/
  | str (t n : Nat)
  /-- `mov xd, sp` -/
  | movFromSp (d : Nat)
  /-- `mov sp, xn` -/
  | movToSp (n : Nat)
  /-- `add xd, sp, #imm` -/
  | addSp (d : Nat) (imm : UInt64)
  /-- `mrs xt, spsr_el1` -/
  | mrsSpsr (t : Nat)
  /-- `mrs xt, elr_el1` -/
  | mrsElr (t : Nat)
  /-- `msr spsr_el1, xt` -/
  | msrSpsr (t : Nat)
  /-- `msr elr_el1, xt` -/
  | msrElr (t : Nat)
  /-- `msr sp_el0, xt` -/
  | msrSpEl0 (t : Nat)
  | ret
  | eret
  deriving Repr, DecidableEq

namespace Cpu

/-- The register `x_d` is set. -/
def setX (k : Cpu) (d : Nat) (v : UInt64) : Cpu := { k with x := Function.update k.x d v }

end Cpu

namespace Instr

/-- The words that the instruction stores, with their addresses. Loads and moves store nothing, so
`execAll` of them leaves memory alone. -/
def stores (k : Cpu) : Instr → List (UInt64 × UInt64)
  | stp t₁ t₂ => [(k.sp - 16, k.x t₁), (k.sp - 16 + 8, k.x t₂)]
  | str t n => [(k.x n, k.x t)]
  | _ => []

/-- The addresses of the words that it loads. -/
def loads (k : Cpu) : Instr → List UInt64
  | ldp _ _ => [k.sp, k.sp + 8]
  | _ => []

/-- The registers after the instruction, where memory holds `word`. The two halves of a pair are
read before either register is written. -/
def next (k : Cpu) (word : UInt64 → UInt64) : Instr → Cpu
  | stp _ _ => { k with sp := k.sp - 16 }
  | ldp t₁ t₂ => { (k.setX t₁ (word k.sp)).setX t₂ (word (k.sp + 8)) with sp := k.sp + 16 }
  | str _ _ => k
  | movFromSp d => k.setX d k.sp
  | movToSp n => { k with sp := k.x n }
  | addSp d imm => k.setX d (k.sp + imm)
  | mrsSpsr t => k.setX t k.spsrEl1
  | mrsElr t => k.setX t k.elrEl1
  | msrSpsr t => { k with spsrEl1 := k.x t }
  | msrElr t => { k with elrEl1 := k.x t }
  | msrSpEl0 t => { k with spEl0 := k.x t }
  | ret => { k with pc := k.x 30 }
  | eret => { k with pc := k.elrEl1, pstate := k.spsrEl1 }

/-- One instruction. -/
def exec (s : Cpu × (UInt64 → UInt8)) (i : Instr) : Cpu × (UInt64 → UInt8) :=
  (i.next s.1 (load64 s.2), (i.stores s.1).foldl (fun mem w => store64 mem w.1 w.2) s.2)

/-- The instruction writes in `W` and reads in `R`. -/
def Within (W R : Set UInt64) (k : Cpu) (i : Instr) : Prop :=
  (∀ w ∈ i.stores k, ∀ a, a - w.1 < 8 → a ∈ W) ∧ ∀ p ∈ i.loads k, ∀ a, a - p < 8 → a ∈ R

variable {W R : Set UInt64} {k : Cpu} {mem mem' : UInt64 → UInt8} {i : Instr}

/-- A byte that none of the stores is at. -/
theorem foldl_store64_outside {ws : List (UInt64 × UInt64)} {a : UInt64}
    (h : ∀ w ∈ ws, ¬ a - w.1 < 8) (mem : UInt64 → UInt8) :
    ws.foldl (fun mem w => store64 mem w.1 w.2) mem a = mem a := by
  induction ws generalizing mem with
  | nil => rfl
  | cons w ws ih =>
    rw [List.foldl_cons, ih fun v hv => h v (List.mem_cons_of_mem _ hv)]
    exact store64_outside _ _ (h w List.mem_cons_self)

/-- A byte after the stores depends on that byte before. -/
theorem foldl_store64_congr {ws : List (UInt64 × UInt64)} {a : UInt64} (h : mem a = mem' a) :
    ws.foldl (fun mem w => store64 mem w.1 w.2) mem a =
      ws.foldl (fun mem w => store64 mem w.1 w.2) mem' a := by
  induction ws generalizing mem mem' with
  | nil => exact h
  | cons w ws ih =>
    rw [List.foldl_cons, List.foldl_cons]
    apply ih
    rw [store64, store64, h]

theorem exec_outside (h : i.Within W R k) {a : UInt64} (ha : a ∉ W) :
    (exec (k, mem) i).2 a = mem a := by
  apply foldl_store64_outside
  intro w hw hlt
  exact ha (h.1 w hw a hlt)

/-- The registers depend on the words that are loaded. -/
theorem next_congr {word word' : UInt64 → UInt64} (h : ∀ p ∈ i.loads k, word p = word' p) :
    i.next k word = i.next k word' := by
  cases i with
  | ldp t₁ t₂ =>
    have hsp := h k.sp (by simp [loads])
    have hsp' := h (k.sp + 8) (by simp [loads])
    simp only [next, hsp, hsp']
  | _ => rfl

/-- The registers depend on the bytes read only. -/
theorem exec_congr (h : i.Within W R k) (hmem : ∀ a ∈ R, mem a = mem' a) :
    (exec (k, mem) i).1 = (exec (k, mem') i).1 := by
  apply next_congr
  intro p hp
  apply load64_congr
  intro a ha
  exact hmem a (h.2 p hp a ha)

end Instr

/-- A straight line of instructions. -/
def execAll (is : List Instr) (s : Cpu × (UInt64 → UInt8)) : Cpu × (UInt64 → UInt8) :=
  is.foldl Instr.exec s

/-- The code writes in `W` and reads in `R`, each instruction from the state that those before it
have left. -/
def Within (W R : Set UInt64) : List Instr → Cpu × (UInt64 → UInt8) → Prop
  | [], _ => True
  | i :: is, s => i.Within W R s.1 ∧ Within W R is (i.exec s)

@[simp] theorem execAll_nil (s : Cpu × (UInt64 → UInt8)) : execAll [] s = s := rfl

/-- The first one, and then the rest. -/
@[simp] theorem execAll_cons (i : Instr) (is : List Instr) (s : Cpu × (UInt64 → UInt8)) :
    execAll (i :: is) s = execAll is (i.exec s) := rfl

/-- One part of the code and then the other. -/
theorem execAll_append (is js : List Instr) (s : Cpu × (UInt64 → UInt8)) :
    execAll (is ++ js) s = execAll js (execAll is s) := List.foldl_append

section Within

variable {W W' R R' B : Set UInt64} {is js : List Instr} {k : Cpu} {s : Cpu × (UInt64 → UInt8)}
  {mem mem' : UInt64 → UInt8}

/-- The same for the bytes written and read. -/
theorem within_append :
    Within W R (is ++ js) s ↔ Within W R is s ∧ Within W R js (execAll is s) := by
  induction is generalizing s with
  | nil => simp [Within]
  | cons i is ih => rw [List.cons_append, Within, ih, Within, execAll_cons, and_assoc]

/-- More bytes may be named than are touched. -/
theorem Within.mono (h : Within W R is s) (hW : W ⊆ W') (hR : R ⊆ R') : Within W' R' is s := by
  induction is generalizing s with
  | nil => trivial
  | cons i is ih =>
    obtain ⟨hi, his⟩ := h
    refine ⟨⟨?_, ?_⟩, ih his⟩
    · intro w hw a ha
      exact hW (hi.1 w hw a ha)
    · intro p hp a ha
      exact hR (hi.2 p hp a ha)

/-- Code keeps the memory that it does not write. -/
theorem execAll_outside (h : Within W R is (k, mem)) {a : UInt64} (ha : a ∉ W) :
    (execAll is (k, mem)).2 a = mem a := by
  induction is generalizing k mem with
  | nil => rfl
  | cons i is ih =>
    rw [execAll_cons]
    exact (ih h.2).trans (Instr.exec_outside h.1 ha)

/-- Memories that agree on what code reads agree on the same bytes after it, and its registers are
the same. -/
theorem execAll_congr (h : Within W R is (k, mem)) (hR : R ⊆ B) (hmem : ∀ a ∈ B, mem a = mem' a) :
    Within W R is (k, mem') ∧ (execAll is (k, mem)).1 = (execAll is (k, mem')).1 ∧
      ∀ a ∈ B, (execAll is (k, mem)).2 a = (execAll is (k, mem')).2 a := by
  induction is generalizing k mem mem' with
  | nil => exact ⟨trivial, rfl, hmem⟩
  | cons i is ih =>
    obtain ⟨hi, his⟩ := h
    have hk : (i.exec (k, mem)).1 = (i.exec (k, mem')).1 :=
      Instr.exec_congr hi fun a ha => hmem a (hR ha)
    have hnext : ∀ a ∈ B, (i.exec (k, mem)).2 a = (i.exec (k, mem')).2 a := by
      intro a ha
      exact Instr.foldl_store64_congr (hmem a ha)
    have hstep : i.exec (k, mem') = ((i.exec (k, mem)).1, (i.exec (k, mem')).2) := by rw [hk]
    obtain ⟨hw, hcpu, hm⟩ := ih his hnext
    rw [execAll_cons, execAll_cons, hstep]
    exact ⟨⟨hi, by rwa [hstep]⟩, hcpu, hm⟩

end Within

/-! ## Registers on the stack

A stack of pairs grows down by 16 bytes a pair, and addresses wrap around at `2 ^ 64`. So the bytes
are given by their distance from the lowest one. -/

/-- The `n` bytes at `p`. -/
def bytesAt (p : UInt64) (n : Nat) : Set UInt64 := {a | (a - p).toNat < n}

/-- The addresses from `lo` up to `hi`. -/
def addrs (lo hi : Nat) : Set UInt64 := {a | lo ≤ a.toNat ∧ a.toNat < hi}

/-- Bytes in a range of addresses. -/
theorem bytesAt_subset {p : UInt64} {n lo hi : Nat} (hlo : lo ≤ p.toNat) (hhi : p.toNat + n ≤ hi)
    (hfits : p.toNat + n ≤ 2 ^ 64) : bytesAt p n ⊆ addrs lo hi := by
  intro a ha
  change (a - p).toNat < n at ha
  have hp := p.toNat_lt
  have ha' := a.toNat_lt
  rw [UInt64.toNat_sub] at ha
  show lo ≤ a.toNat ∧ a.toNat < hi
  omega

theorem disjoint_addrs {lo mid mid' hi : Nat} (h : mid ≤ mid') :
    Disjoint (addrs lo mid) (addrs mid' hi) := by
  rw [Set.disjoint_left]
  intro a ha ha'
  exact absurd (lt_of_lt_of_le ha.2 h) (not_lt_of_ge ha'.1)

/-- A part of some bytes. -/
theorem bytesAt_add_subset {p k : UInt64} {m n : Nat} (hn : k.toNat + m ≤ n) :
    bytesAt (p + k) m ⊆ bytesAt p n := by
  intro a ha
  change (a - (p + k)).toNat < m at ha
  have hk := k.toNat_lt
  have hp := p.toNat_lt
  have ha' := a.toNat_lt
  rw [UInt64.toNat_sub, UInt64.toNat_add] at ha
  show (a - p).toNat < n
  rw [UInt64.toNat_sub]
  omega

/-- The bytes below `p` are none of the `n` bytes at it. -/
theorem notMem_bytesAt_below {p a k : UInt64} {n : Nat} (hn : k.toNat + n ≤ 2 ^ 64)
    (ha : (a - p).toNat < n) : a ∉ bytesAt (p - k) k.toNat := by
  intro hin
  change (a - (p - k)).toNat < k.toNat at hin
  have hk := k.toNat_lt
  have hp := p.toNat_lt
  have ha' := a.toNat_lt
  rw [UInt64.toNat_sub] at ha
  rw [UInt64.toNat_sub, UInt64.toNat_sub] at hin
  omega

/-- The pairs are pushed one after another. -/
def pushes (rs : List (Nat × Nat)) : List Instr := rs.map fun r => .stp r.1 r.2

/-- The pairs are popped one after another. -/
def pops (rs : List (Nat × Nat)) : List Instr := rs.map fun r => .ldp r.1 r.2

/-- The registers of pairs in the order in which they are popped. -/
def regsOf (rs : List (Nat × Nat)) : List Nat := rs.flatMap fun r => [r.1, r.2]

@[simp] theorem regsOf_nil : regsOf [] = [] := rfl

@[simp] theorem regsOf_cons (r : Nat × Nat) (rs : List (Nat × Nat)) :
    regsOf (r :: rs) = r.1 :: r.2 :: regsOf rs := rfl

theorem regsOf_append (rs qs : List (Nat × Nat)) : regsOf (rs ++ qs) = regsOf rs ++ regsOf qs :=
  List.flatMap_append

section Stack

variable {rs : List (Nat × Nat)}

theorem ofNat_succ (n : Nat) : UInt64.ofNat (n + 1) = .ofNat n + 1 := UInt64.ofNat_add n 1

/-- The stack pointer after `n` more pairs are pushed. -/
theorem sp_sub_succ (sp : UInt64) (n : Nat) :
    sp - 16 - 16 * .ofNat n = sp - 16 * .ofNat (n + 1) := by
  grind [ofNat_succ]

/-- The stack pointer after `n` more pairs are popped. -/
theorem sp_add_succ (sp : UInt64) (n : Nat) :
    sp + 16 + 16 * .ofNat n = sp + 16 * .ofNat (n + 1) := by
  grind [ofNat_succ]

/-- A push changes the stack pointer and no other register. -/
theorem pushes_cpu (k : Cpu) (mem : UInt64 → UInt8) (rs : List (Nat × Nat)) :
    (execAll (pushes rs) (k, mem)).1 = { k with sp := k.sp - 16 * .ofNat rs.length } := by
  induction rs generalizing k mem with
  | nil => simp [pushes]
  | cons r rs ih =>
    have hnext := ih { k with sp := k.sp - 16 } (Instr.exec (k, mem) (.stp r.1 r.2)).2
    simp only [sp_sub_succ] at hnext
    exact hnext

/-- The bytes of `n` pairs, as a number. -/
theorem toNat_pairs {n : Nat} (hn : 16 * n < 2 ^ 64) : (16 * UInt64.ofNat n).toNat = 16 * n := by
  have h16 : (16 : UInt64).toNat = 16 := rfl
  rw [UInt64.toNat_mul, UInt64.toNat_ofNat', h16]
  omega

/-- The bytes of `n` pairs below `sp` are among those of one more pair. -/
theorem bytesAt_sub_succ (sp : UInt64) (n : Nat) :
    bytesAt (sp - 16 - 16 * .ofNat n) (16 * n) ⊆
      bytesAt (sp - 16 * .ofNat (n + 1)) (16 * (n + 1)) := by
  intro a ha
  change (a - (sp - 16 - 16 * .ofNat n)).toNat < 16 * n at ha
  rw [sp_sub_succ] at ha
  show (a - (sp - 16 * .ofNat (n + 1))).toNat < 16 * (n + 1)
  omega

/-- A byte of the pair just below `sp` is one of those of `n + 1` pairs, above those of the
others. -/
theorem toNat_sub_head {sp a : UInt64} {n : Nat} (hn : 16 * (n + 1) < 2 ^ 64)
    (ha : (a - (sp - 16)).toNat < 16) :
    16 * n ≤ (a - (sp - 16 * .ofNat (n + 1))).toNat ∧
      (a - (sp - 16 * .ofNat (n + 1))).toNat < 16 * (n + 1) := by
  have hpairs := toNat_pairs (n := n + 1) hn
  have h16 : (16 : UInt64).toNat = 16 := rfl
  have hsp := sp.toNat_lt
  have ha' := a.toNat_lt
  rw [UInt64.toNat_sub, UInt64.toNat_sub, h16] at ha
  rw [UInt64.toNat_sub, UInt64.toNat_sub, hpairs]
  omega

/-- The two words of a pair. -/
theorem toNat_sub_pair {p w a : UInt64} (hw : w = p ∨ w = p + 8) (ha : a - w < 8) :
    (a - p).toNat < 16 := by
  have h8 : (8 : UInt64).toNat = 8 := rfl
  have hp := p.toNat_lt
  have ha' := a.toNat_lt
  rw [UInt64.lt_iff_toNat_lt, UInt64.toNat_sub, h8] at ha
  rw [UInt64.toNat_sub]
  rcases hw with rfl | rfl
  · omega
  · rw [UInt64.toNat_add, h8] at ha
    omega

/-- Pushes write to the stack and read nothing. The words go below the stack pointer, as far down as
there are registers. -/
theorem within_pushes (k : Cpu) (mem : UInt64 → UInt8) (hn : 16 * rs.length < 2 ^ 64) :
    Within (bytesAt (k.sp - 16 * .ofNat rs.length) (16 * rs.length)) ∅ (pushes rs) (k, mem) := by
  induction rs generalizing k mem with
  | nil => trivial
  | cons r rs ih =>
    rw [List.length_cons] at hn
    refine ⟨⟨?_, ?_⟩, ?_⟩
    · intro w hw a ha
      have hpair : w.1 = k.sp - 16 ∨ w.1 = k.sp - 16 + 8 := by
        simp only [Instr.stores, List.mem_cons, List.not_mem_nil, or_false] at hw
        rcases hw with rfl | rfl
        · exact .inl rfl
        · exact .inr rfl
      exact (toNat_sub_head hn (toNat_sub_pair hpair ha)).2
    · intro p hp
      simp [Instr.loads] at hp
    · have hrest := ih { k with sp := k.sp - 16 } (Instr.exec (k, mem) (.stp r.1 r.2)).2 (by omega)
      exact hrest.mono (bytesAt_sub_succ k.sp rs.length) (Set.Subset.refl _)

/-- What a push stores. -/
theorem words_exec_stp (k : Cpu) (mem : UInt64 → UInt8) (t₁ t₂ : Nat) :
    words (Instr.exec (k, mem) (.stp t₁ t₂)).2 (k.sp - 16) 2 = [k.x t₁, k.x t₂] := by
  have hlow : load64 (Instr.exec (k, mem) (.stp t₁ t₂)).2 (k.sp - 16) = k.x t₁ := by
    show load64 (store64 (store64 mem (k.sp - 16) _) (k.sp - 16 + 8) _) _ = _
    rw [load64_store64_of_apart _ _ (by grind) (by grind), load64_store64_self]
  have hhigh : load64 (Instr.exec (k, mem) (.stp t₁ t₂)).2 (k.sp - 16 + 8) = k.x t₂ :=
    load64_store64_self _ _ _
  rw [words, words, words, hlow, hhigh]

/-- The pushed registers lie on the stack, the last pair lowest. By induction on the pairs: a push
writes below all that was pushed before, so what is there stays. -/
theorem words_pushes (k : Cpu) (mem : UInt64 → UInt8) (hn : 16 * rs.length < 2 ^ 64) :
    words (execAll (pushes rs) (k, mem)).2 (k.sp - 16 * .ofNat rs.length) (2 * rs.length) =
      (regsOf rs.reverse).map k.x := by
  induction rs generalizing k mem with
  | nil => rfl
  | cons r rs ih =>
    rw [List.length_cons] at hn
    have hlen : 16 * rs.length < 2 ^ 64 := by omega
    let s := Instr.exec (k, mem) (.stp r.1 r.2)
    have hrest := ih s.1 s.2 hlen
    have hsp : s.1.sp - 16 * .ofNat rs.length = k.sp - 16 * .ofNat (rs.length + 1) :=
      sp_sub_succ k.sp rs.length
    have htop : k.sp - 16 * .ofNat (rs.length + 1) + 8 * .ofNat (2 * rs.length) = k.sp - 16 := by
      have hmul : UInt64.ofNat (2 * rs.length) = 2 * .ofNat rs.length := UInt64.ofNat_mul _ _
      grind [ofNat_succ]
    -- The later pushes are below the first one.
    have hfirst : words (execAll (pushes rs) (s.1, s.2)).2 (k.sp - 16) 2 =
        words s.2 (k.sp - 16) 2 := by
      apply words_congr (by decide)
      intro a ha
      apply execAll_outside (within_pushes s.1 s.2 hlen)
      intro hin
      change (a - (k.sp - 16 - 16 * .ofNat rs.length)).toNat < 16 * rs.length at hin
      have habove := (toNat_sub_head hn ha).1
      rw [sp_sub_succ] at hin
      omega
    rw [hsp] at hrest
    show words (execAll (pushes rs) (s.1, s.2)).2 (k.sp - 16 * .ofNat (rs.length + 1))
      (2 * rs.length + 2) = _
    rw [words_append, hrest, htop, hfirst, words_exec_stp, List.reverse_cons, regsOf_append,
      List.map_append]
    rfl

/-- Pushes: the registers, the words on the stack and the rest of the memory. -/
theorem execAll_pushes (k : Cpu) (mem : UInt64 → UInt8) (hn : 16 * rs.length < 2 ^ 64) :
    ∃ m, execAll (pushes rs) (k, mem) = ({ k with sp := k.sp - 16 * .ofNat rs.length }, m) ∧
      words m (k.sp - 16 * .ofNat rs.length) (2 * rs.length) = (regsOf rs.reverse).map k.x ∧
      ∀ a ∉ bytesAt (k.sp - 16 * .ofNat rs.length) (16 * rs.length), m a = mem a :=
  ⟨(execAll (pushes rs) (k, mem)).2, Prod.ext (pushes_cpu k mem rs) rfl, words_pushes k mem hn,
    fun _ ha => execAll_outside (within_pushes k mem hn) ha⟩

/-- Pops read from the stack and write nothing. By induction on the pairs, with the bytes of the
first pair and those of the rest as one interval. -/
theorem within_pops (k : Cpu) (mem : UInt64 → UInt8) (rs : List (Nat × Nat)) :
    Within ∅ (bytesAt k.sp (16 * rs.length)) (pops rs) (k, mem) := by
  induction rs generalizing k with
  | nil => trivial
  | cons r rs ih =>
    rw [List.length_cons]
    refine ⟨⟨?_, ?_⟩, ?_⟩
    · intro w hw
      simp [Instr.stores] at hw
    · intro p hp a ha
      have hpair : p = k.sp ∨ p = k.sp + 8 := by
        simpa only [Instr.loads, List.mem_cons, List.not_mem_nil, or_false] using hp
      have hlt := toNat_sub_pair hpair ha
      show (a - k.sp).toNat < 16 * (rs.length + 1)
      omega
    · apply (ih (Instr.exec (k, mem) (.ldp r.1 r.2)).1).mono (Set.Subset.refl _)
      intro a ha
      change (a - (k.sp + 16)).toNat < 16 * rs.length at ha
      have h16 : (16 : UInt64).toNat = 16 := rfl
      have hsp := k.sp.toNat_lt
      have ha' := a.toNat_lt
      rw [UInt64.toNat_sub, UInt64.toNat_add, h16] at ha
      show (a - k.sp).toNat < 16 * (rs.length + 1)
      rw [UInt64.toNat_sub]
      omega

/-- Pops load the registers from the words on the stack, in their order. -/
theorem execAll_pops (k : Cpu) (mem : UInt64 → UInt8) (rs : List (Nat × Nat)) :
    execAll (pops rs) (k, mem) =
      ({ k with
          x := applyWrites k.x ((regsOf rs).zip (words mem k.sp (2 * rs.length)))
          sp := k.sp + 16 * .ofNat rs.length }, mem) := by
  induction rs generalizing k with
  | nil => simp [pops]
  | cons r rs ih =>
    have hnext := ih (Instr.exec (k, mem) (.ldp r.1 r.2)).1
    have hsp : (Instr.exec (k, mem) (.ldp r.1 r.2)).1.sp = k.sp + 16 := rfl
    have hstep : k.sp + 8 + 8 = k.sp + 16 := by grind
    simp only [hsp, sp_add_succ] at hnext
    rw [List.length_cons, Nat.mul_succ, words, words, hstep]
    exact hnext

end Stack

end KernelAarch64.Lib
