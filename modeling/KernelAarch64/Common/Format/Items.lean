import KernelAarch64.Common.Format
import Mathlib.Data.List.Find
import Mathlib.Data.List.Infix
import Mathlib.Logic.Relation

/-!
# Format strings as sequences of items

A format string is a sequence of items: single characters, and directives that may take an
argument. What `vformat` prints is what its items print, one after the other, and which items a
string has does not depend on what is behind them, but for a `%` at its end.

The main result is `vformat_laws`. `vformat_eq` is the step to items: one turn of the loop prints
one item (`vformatTurn_eq`), and the turns make the items of `scan`. The rest is about lists of
items, where format strings compose because their items do (`scan_append`), unless the first one
ends in the middle of a directive.
-/

namespace KernelAarch64.Common

/-- What a format string is made of: characters that stand for themselves, and directives. A `%`
that begins no directive is a character like any other. -/
inductive Item where
  | text (c : UInt8)
  | percent
  | char
  | string
  | int (d : IntCase)
  deriving DecidableEq

/-- The directives, in the order in which they are tried. -/
def directives : List Item := .percent :: .char :: .string :: intCases.map .int

namespace Item

/-- What comes behind the first character, and is skipped together with it. -/
def ident : Item → List UInt8
  | .text _ => []
  | .percent => chars ['%']
  | .char => chars ['c']
  | .string => chars ['s']
  | .int d => d.ident

variable (mem : UInt64 → Option (List UInt8))

/-- What an item prints, with the arguments that are left. Text and `%%` take none, every other item
takes one. -/
def put : Item → List UInt64 → Except FormatFault (List UInt8 × List UInt64)
  | .text c, arg => .ok ([c], arg)
  | .percent, arg => .ok (chars ['%'], arg)
  | .char, arg => do
    let a ← vaArg arg
    return ([a.1.toUInt8], a.2)
  | .string, arg => do
    let a ← vaArg arg
    let s ← stringAt mem a.1
    return (s, a.2)
  | .int d, arg => do
    let a ← vaArg arg
    let s ← printInt (d.type.read a.1) d.base d.sign
    return (s, a.2)

/-- What items print, one after the other. An error of an item is an error of the whole. -/
def putAll : List Item → List UInt64 → Except FormatFault (List UInt8 × List UInt64)
  | [], arg => .ok ([], arg)
  | it :: its, arg => do
    let t ← it.put mem arg
    let r ← putAll its t.2
    return (t.1 ++ r.1, r.2)

/-- The arguments are those that the items take: one for each directive other than `%%`, and `NULL`
or the address of a string for `%s`. -/
def Takes : List Item → List UInt64 → Prop
  | [], arg => arg = []
  | .text _ :: its, arg | .percent :: its, arg => Takes its arg
  | .char :: its, _ :: arg | .int _ :: its, _ :: arg => Takes its arg
  | .string :: its, w :: arg => (w = 0 ∨ mem w ≠ none) ∧ Takes its arg
  | _ :: _, [] => False

end Item

/-- The item that begins with `c`, before `f`: behind a percent sign the first directive of the
table whose identifier `f` begins with, and the byte itself where there is none. -/
def itemAt (c : UInt8) (f : List UInt8) : Item :=
  if c = '%'.toUInt8 then (directives.find? fun it => it.ident.isPrefixOf f).getD (.text c)
  else .text c

/-- The items of a format string without its first `skip` characters. Going character by character,
and skipping those that belong to the item before, keeps the recursion structural. -/
def scanFrom : Nat → List UInt8 → List Item
  | _, [] => []
  | skip + 1, _ :: f => scanFrom skip f
  | 0, c :: f => itemAt c f :: scanFrom (itemAt c f).ident.length f

/-- The items of a format string. -/
def scan (f : List UInt8) : List Item := scanFrom 0 f

/-- An item of `f` begins at `g`. -/
def Begins : List UInt8 → List UInt8 → Prop :=
  Relation.ReflTransGen fun f g => ∃ c f', f = c :: f' ∧ g = f'.drop (itemAt c f').ident.length

/-- What a directive that is not finished may have behind its `%`. -/
def unfinishedTails : List (List UInt8) := [[], chars ['l'], chars ['l', 'l'], chars ['z']]

/-- The string ends in a directive that is not finished. -/
def Unfinished (f : List UInt8) : Prop := ∃ t ∈ unfinishedTails, Begins f ('%'.toUInt8 :: t)

variable {mem : UInt64 → Option (List UInt8)} {c d : UInt8} {f g p r : List UInt8}
  {arg : List UInt64}

/-! ## The scanner

The comparisons of a turn, in their order, are a search for the first identifier that is a prefix.
-/

/-- The comparison asks whether `p` is a prefix, and stops at the terminator of `f`. So it reads
nothing behind the format string, which is what makes the faults of `vformat` impossible. -/
theorem strncmp_spec (hp : 0 ∉ p) (hf : 0 ∉ f) :
    ∃ z, strncmp (f ++ 0 :: r) (p ++ [0]) p.length = .ok z ∧ (z = 0 ↔ p <+: f) := by
  induction p generalizing f with
  | nil => exact ⟨0, by rw [List.length_nil, strncmp], by simp⟩
  | cons b p ih =>
    simp only [List.mem_cons, not_or] at hp
    cases f with
    | nil =>
      refine ⟨_, if_pos hp.1, ?_⟩
      have hb : b.toNat ≠ 0 := fun h => hp.1 (UInt8.toNat_inj.mp h).symm
      simp
      omega
    | cons a f =>
      simp only [List.mem_cons, not_or] at hf
      by_cases hab : a = b
      · subst hab
        obtain ⟨z, hz, hiff⟩ := ih hp.2 hf.2
        refine ⟨z, ?_, ?_⟩
        · rw [List.cons_append, List.cons_append, List.length_cons, strncmp,
            if_neg (not_not.mpr rfl), if_neg (by simpa using Ne.symm hp.1)]
          exact hz
        · rw [hiff, List.cons_prefix_cons]
          simp
      · refine ⟨_, if_pos hab, ?_⟩
        have hne : a.toNat ≠ b.toNat := fun h => hab (UInt8.toNat_inj.mp h)
        simp only [List.cons_prefix_cons, Ne.symm hab, false_and, iff_false]
        omega

/-- The comparisons of the parser find the first identifier that is a prefix of what follows. They
stop at the terminator, since no identifier contains it. -/
theorem findCase_eq (hf : 0 ∉ f) (ds : List IntCase) :
    findCase (f ++ 0 :: r) ds = .ok (ds.find? fun d => d.ident.isPrefixOf f) := by
  induction ds with
  | nil => rfl
  | cons d ds ih =>
    obtain ⟨z, hz, hiff⟩ := strncmp_spec (r := r) d.nul hf
    rw [findCase, hz, List.find?_cons]
    show (if z = 0 then _ else _) = _
    by_cases hpre : d.ident <+: f
    · rw [if_pos (hiff.mpr hpre), List.isPrefixOf_iff_prefix.mpr hpre]
      rfl
    · rw [if_neg (mt hiff.mp hpre), ih, Bool.eq_false_iff.mpr (mt List.isPrefixOf_iff_prefix.mp hpre)]

/-- A character other than `%` is itself. -/
theorem itemAt_of_ne (hc : c ≠ '%'.toUInt8) : itemAt c f = .text c := if_neg hc

/-- An identifier with another first character. -/
theorem not_isPrefixOf {e : UInt8} (h : d ≠ e) : ¬[e].isPrefixOf (d :: g) = true := by
  rw [List.isPrefixOf_iff_prefix, List.cons_prefix_cons]
  exact fun hpre => h hpre.1.symm

/-- The directives for numbers are tried last. -/
theorem itemAt_percent (hd : d ≠ '%'.toUInt8) (hc : d ≠ 'c'.toUInt8) (hs : d ≠ 's'.toUInt8) :
    itemAt '%'.toUInt8 (d :: g) =
      ((intCases.find? fun i => i.ident.isPrefixOf (d :: g)).map Item.int).getD
        (.text '%'.toUInt8) := by
  rw [itemAt, if_pos rfl, directives, List.find?_cons_of_neg, List.find?_cons_of_neg,
    List.find?_cons_of_neg, List.find?_map]
  · rfl
  · exact not_isPrefixOf hs
  · exact not_isPrefixOf hc
  · exact not_isPrefixOf hd

/-- A turn of the loop prints one item and goes on behind it. The cases are those of the source: a
plain character, the end behind a `%`, `%%`, `%c`, `%s` and the integers. -/
theorem vformatTurn_eq (hf : 0 ∉ f) : vformatTurn mem c (f ++ 0 :: r) arg =
    ((itemAt c f).put mem arg).map fun t =>
      (t.1, f.drop (itemAt c f).ident.length ++ 0 :: r, t.2) := by
  by_cases hc : c = '%'.toUInt8
  · subst hc
    rw [vformatTurn, if_pos rfl]
    cases f with
    | nil =>
      -- the terminator begins no directive
      show (findCase ([] ++ 0 :: r) intCases >>= fun o => _) = _
      rw [findCase_eq List.not_mem_nil]
      rfl
    | cons d g =>
      by_cases hd : d = '%'.toUInt8
      · subst hd
        rfl
      by_cases hdc : d = 'c'.toUInt8
      · subst hdc
        cases arg <;> rfl
      by_cases hds : d = 's'.toUInt8
      · subst hds
        cases arg with
        | nil => rfl
        | cons w arg =>
          show (stringAt mem w >>= fun s => _) = Except.map _ (stringAt mem w >>= fun s => _)
          cases stringAt mem w <;> rfl
      -- the integers come last, as their identifiers may have several characters
      rw [itemAt_percent hd hdc hds]
      show (if d = _ then _ else if d = _ then _ else if d = _ then _ else _) = _
      rw [if_neg hd, if_neg hdc, if_neg hds, findCase_eq hf]
      cases hfind : intCases.find? fun i => i.ident.isPrefixOf (d :: g) with
      | none => rfl
      | some i =>
        have hle : i.ident.length ≤ (d :: g).length := by
          have hpre := List.find?_some hfind
          exact (List.isPrefixOf_iff_prefix.mp hpre).length_le
        cases arg with
        | nil => rfl
        | cons w arg =>
          show (printInt _ _ _ >>= fun s => _) = Except.map _ (printInt _ _ _ >>= fun s => _)
          cases printInt (i.type.read w) i.base i.sign with
          | error e => rfl
          | ok s =>
            show Except.ok (s, ((d :: g) ++ 0 :: r).drop i.ident.length, arg) = _
            rw [List.drop_append_of_le_length hle]
            rfl
  · rw [vformatTurn, if_neg hc, itemAt_of_ne hc]
    rfl

/-- Characters that are skipped belong to the item before. -/
theorem scanFrom_eq (n : Nat) (f : List UInt8) : scanFrom n f = scan (f.drop n) := by
  induction f generalizing n with
  | nil =>
    rw [List.drop_nil]
    cases n <;> rfl
  | cons c f ih =>
    cases n with
    | zero => rfl
    | succ n => rw [scanFrom, ih, List.drop_succ_cons]

theorem scan_cons (c : UInt8) (f : List UInt8) :
    scan (c :: f) = itemAt c f :: scan (f.drop (itemAt c f).ident.length) := by
  rw [← scanFrom_eq, scan, scanFrom]

/-- `vformat` prints the items of its format string. The induction is on the fuel, of which every
turn takes one while the string gets shorter by one character at least. -/
theorem vformatLoop_eq {fuel : Nat} (hf : 0 ∉ f) (hfuel : f.length < fuel) :
    vformatLoop mem fuel (f ++ 0 :: r) arg = Item.putAll mem (scan f) arg := by
  induction fuel generalizing f arg with
  | zero => omega
  | succ fuel ih =>
    cases f with
    | nil => rfl
    | cons c f =>
      simp only [List.mem_cons, not_or] at hf
      rw [List.length_cons] at hfuel
      rw [scan_cons, Item.putAll, vformatLoop]
      show (if c = 0 then _ else _) = _
      rw [if_neg (Ne.symm hf.1)]
      show (vformatTurn mem c (f ++ 0 :: r) arg >>= fun t => _) = _
      rw [vformatTurn_eq hf.2]
      cases (itemAt c f).put mem arg with
      | error e => rfl
      | ok t =>
        show (vformatLoop mem fuel (f.drop _ ++ 0 :: r) t.2 >>= fun r => _) = _
        rw [ih (fun h => hf.2 (List.mem_of_mem_drop h))
          (by rw [List.length_drop]; omega)]
        rfl

/-- A format string with its terminator. -/
theorem vformat_eq (hf : 0 ∉ f) : vformat mem (f ++ [0]) arg = Item.putAll mem (scan f) arg :=
  vformatLoop_eq hf (by simp)

/-! ## Composition

What comes behind a complete item can not make it another item. Only a directive that is cut off
could be completed, which `Unfinished` excludes. -/

/-- What a directive that is cut off has behind its `%`. -/
theorem mem_unfinishedTails {it : Item} (hit : it ∈ directives) (hpre : f <+: it.ident)
    (hne : f ≠ it.ident) : f ∈ unfinishedTails := by
  have hall : ∀ it ∈ directives, ∀ f ∈ it.ident.inits, f ≠ it.ident → f ∈ unfinishedTails := by
    decide
  exact hall it hit f (List.mem_inits f it.ident |>.mpr hpre) hne

/-- An item that is complete stays what it is when text is put behind it. Only behind a percent sign
can more text turn it into another, and only where the string ends in the middle of an identifier.
-/
theorem itemAt_append (h : c = '%'.toUInt8 → f ∉ unfinishedTails) :
    itemAt c (f ++ g) = itemAt c f := by
  rw [itemAt, itemAt]
  split
  · next hc =>
    have hsame : ∀ it ∈ directives, it.ident.isPrefixOf (f ++ g) = it.ident.isPrefixOf f := ?_
    rw [List.find?_congr hsame]
    intro it hit
    rw [Bool.eq_iff_iff, List.isPrefixOf_iff_prefix, List.isPrefixOf_iff_prefix]
    refine ⟨fun hpre => ?_, fun hpre => hpre.trans (List.prefix_append f g)⟩
    by_contra hnot
    rcases List.prefix_or_prefix_of_prefix hpre (List.prefix_append f g) with hle | hle
    · exact hnot hle
    · exact h hc (mem_unfinishedTails hit hle fun heq => hnot (heq ▸ List.prefix_refl f))
  · rfl

/-- An item is in the string. -/
theorem ident_length_le (c : UInt8) (f : List UInt8) : (itemAt c f).ident.length ≤ f.length := by
  rw [itemAt]
  split
  · cases hfind : directives.find? fun it => it.ident.isPrefixOf f with
    | none => exact Nat.zero_le _
    | some it =>
      have hpre := List.find?_some hfind
      exact (List.isPrefixOf_iff_prefix.mp hpre).length_le
  · exact Nat.zero_le _

/-- The rest of a string that is finished is finished. -/
theorem Unfinished.rest (h : ¬Unfinished (c :: f)) :
    ¬Unfinished (f.drop (itemAt c f).ident.length) := by
  intro hrest
  obtain ⟨t, ht, hbegins⟩ := hrest
  exact h ⟨t, ht, Relation.ReflTransGen.head ⟨c, f, rfl, rfl⟩ hbegins⟩

/-- The items of two strings are those of the first and those of the second, if the first one does
not end in the middle of a directive. -/
theorem scan_append (h : ¬Unfinished f) : scan (f ++ g) = scan f ++ scan g := by
  induction hn : f.length using Nat.strongRecOn generalizing f with
  | _ n ih =>
    cases f with
    | nil => rfl
    | cons c f =>
      have htail : c = '%'.toUInt8 → f ∉ unfinishedTails := by
        rintro rfl hf
        exact h ⟨f, hf, Relation.ReflTransGen.refl⟩
      rw [List.length_cons] at hn
      rw [List.cons_append, scan_cons, scan_cons, itemAt_append htail,
        List.drop_append_of_le_length (ident_length_le c f),
        ih _ (by rw [List.length_drop]; omega) (Unfinished.rest h) rfl, List.cons_append]

/-- Text is its characters. -/
theorem scan_text_append (hf : '%'.toUInt8 ∉ f) : scan (f ++ g) = f.map .text ++ scan g := by
  induction f with
  | nil => rfl
  | cons c f ih =>
    simp only [List.mem_cons, not_or] at hf
    rw [List.cons_append, scan_cons, itemAt_of_ne (Ne.symm hf.1), List.map_cons, List.cons_append]
    exact congrArg _ (ih hf.2)

/-- A `%` that begins no directive. -/
theorem itemAt_unknown (h : ∀ it ∈ directives, ¬it.ident <+: f) :
    itemAt '%'.toUInt8 f = .text '%'.toUInt8 := by
  have hnone : directives.find? (fun it => it.ident.isPrefixOf f) = none := by
    rw [List.find?_eq_none]
    exact fun it hit => mt List.isPrefixOf_iff_prefix.mp (h it hit)
  rw [itemAt, if_pos rfl, hnone]
  rfl

namespace Item

/-- What two lists of items print. -/
theorem putAll_append (its its' : List Item) (arg : List UInt64) :
    putAll mem (its ++ its') arg = do
      let r ← putAll mem its arg
      let r' ← putAll mem its' r.2
      return (r.1 ++ r'.1, r'.2) := by
  induction its generalizing arg with
  | nil =>
    show putAll mem its' arg = (putAll mem its' arg >>= fun r => pure ([] ++ r.1, r.2))
    simp only [List.nil_append, Prod.mk.eta, bind_pure]
  | cons it its ih =>
    simp only [List.cons_append, putAll, ih, bind_assoc, pure_bind, List.append_assoc]

/-- Text prints itself and takes no argument. -/
theorem putAll_text (f : List UInt8) (arg : List UInt64) :
    putAll mem (f.map .text) arg = .ok (f, arg) := by
  induction f with
  | nil => rfl
  | cons c f ih =>
    rw [List.map_cons, putAll]
    show (putAll mem (f.map .text) arg >>= fun r => _) = _
    rw [ih]
    rfl

/-- One item and the rest. -/
theorem putAll_cons {it : Item} {its : List Item} {s o : List UInt8} {a b : List UInt64}
    (hput : it.put mem arg = .ok (s, a)) (hrest : putAll mem its a = .ok (o, b)) :
    putAll mem (it :: its) arg = .ok (s ++ o, b) := by
  rw [putAll, hput]
  show (putAll mem its a >>= fun r => _) = _
  rw [hrest]
  rfl

/-- `NULL` is printed, too. -/
theorem stringAt_ok {w : UInt64} (h : w = 0 ∨ mem w ≠ none) : ∃ s, stringAt mem w = .ok s := by
  rw [stringAt]
  split
  · exact ⟨_, rfl⟩
  · next hw =>
    cases hmem : mem w with
    | none => exact absurd hmem (h.resolve_left hw)
    | some s => exact ⟨s, rfl⟩

/-- With its arguments a format string is printed, and other arguments stay. What is printed does
not depend on the arguments behind. -/
theorem putAll_of_takes {its : List Item} {a : List UInt64} (h : Takes mem its a) :
    ∃ o, ∀ b, putAll mem its (a ++ b) = .ok (o, b) := by
  induction its generalizing a with
  | nil =>
    obtain rfl : a = [] := h
    exact ⟨[], fun b => rfl⟩
  | cons it its ih =>
    cases it with
    | text c =>
      obtain ⟨o, ho⟩ := ih (a := a) h
      exact ⟨[c] ++ o, fun b => putAll_cons rfl (ho b)⟩
    | percent =>
      obtain ⟨o, ho⟩ := ih (a := a) h
      exact ⟨chars ['%'] ++ o, fun b => putAll_cons rfl (ho b)⟩
    | char =>
      cases a with
      | nil => exact h.elim
      | cons w a =>
        obtain ⟨o, ho⟩ := ih (a := a) h
        exact ⟨[w.toUInt8] ++ o, fun b => putAll_cons rfl (ho b)⟩
    | string =>
      cases a with
      | nil => exact h.elim
      | cons w a =>
        obtain ⟨o, ho⟩ := ih (a := a) h.2
        obtain ⟨s, hs⟩ := stringAt_ok h.1
        refine ⟨s ++ o, fun b => putAll_cons ?_ (ho b)⟩
        show (stringAt mem w >>= fun s => _) = _
        rw [hs]
        rfl
    | int d =>
      cases a with
      | nil => exact h.elim
      | cons w a =>
        obtain ⟨o, ho⟩ := ih (a := a) h
        obtain ⟨s, hs⟩ : ∃ s, printInt (d.type.read w) d.base d.sign = .ok s :=
          ⟨_, printInt_eq d.one_lt d.le⟩
        refine ⟨s ++ o, fun b => putAll_cons ?_ (ho b)⟩
        show (printInt (d.type.read w) d.base d.sign >>= fun s => _) = _
        rw [hs]
        rfl

/-- A sequence fails at its first part or at its second. -/
theorem bind_eq_error {α β : Type} {x : Except FormatFault α} {k : α → Except FormatFault β}
    {e : FormatFault} (h : x >>= k = .error e) :
    x = .error e ∨ ∃ a, x = .ok a ∧ k a = .error e := by
  cases x with
  | error e' =>
    cases h
    exact .inl rfl
  | ok a => exact .inr ⟨a, rfl, h⟩

/-- `va_arg` fails for want of an argument. -/
theorem vaArg_error {e : FormatFault} (h : vaArg arg = .error e) : e = .arg := by
  cases arg with
  | nil =>
    cases h
    rfl
  | cons w arg => cases h

/-- A string fails if there is none at its address. -/
theorem stringAt_error {w : UInt64} {e : FormatFault} (h : stringAt mem w = .error e) :
    e = .str := by
  rw [stringAt] at h
  split at h
  · cases h
  · split at h
    · cases h
      rfl
    · cases h

/-- An item fails only for want of an argument or of a string. The buffer is always large enough,
and the digits are all in the table. -/
theorem put_error {it : Item} {e : FormatFault} (h : it.put mem arg = .error e) :
    e = .arg ∨ e = .str := by
  cases it with
  | text c | percent => cases h
  | char =>
    rcases bind_eq_error h with harg | ⟨a, -, hret⟩
    · exact .inl (vaArg_error harg)
    · cases hret
  | string =>
    rcases bind_eq_error h with harg | ⟨a, -, hrest⟩
    · exact .inl (vaArg_error harg)
    · rcases bind_eq_error hrest with hstr | ⟨s, -, hret⟩
      · exact .inr (stringAt_error hstr)
      · cases hret
  | int d =>
    rcases bind_eq_error h with harg | ⟨a, -, hrest⟩
    · exact .inl (vaArg_error harg)
    · rcases bind_eq_error hrest with hint | ⟨s, -, hret⟩
      · rw [printInt_eq d.one_lt d.le] at hint
        cases hint
      · cases hret

/-- So it is for all items. -/
theorem putAll_error {its : List Item} {e : FormatFault} (h : putAll mem its arg = .error e) :
    e = .arg ∨ e = .str := by
  induction its generalizing arg with
  | nil => cases h
  | cons it its ih =>
    rcases bind_eq_error h with hput | ⟨t, -, hrest⟩
    · exact put_error hput
    · rcases bind_eq_error hrest with hall | ⟨r, -, hret⟩
      · exact ih hall
      · cases hret

end Item

/-! ## What `vformat` prints

The laws, from those about items. -/

/-- The arguments are those of the format string. -/
def Matching (mem : UInt64 → Option (List UInt8)) (f : List UInt8) (arg : List UInt64) : Prop :=
  Item.Takes mem (scan f) arg

/-- Format strings compose, with their arguments: what the two strings print one after the other is
what their concatenation prints with both argument lists, and every argument is used. -/
theorem vformat_append {f₁ f₂ : List UInt8} {a₁ a₂ : List UInt64} (hf₁ : 0 ∉ f₁) (hf₂ : 0 ∉ f₂)
    (hend : ¬Unfinished f₁) (ha₁ : Matching mem f₁ a₁) (ha₂ : Matching mem f₂ a₂) :
    ∃ o₁ o₂, vformat mem (f₁ ++ [0]) a₁ = .ok (o₁, []) ∧
      vformat mem (f₂ ++ [0]) a₂ = .ok (o₂, []) ∧
      vformat mem (f₁ ++ f₂ ++ [0]) (a₁ ++ a₂) = .ok (o₁ ++ o₂, []) := by
  obtain ⟨o₁, ho₁⟩ := Item.putAll_of_takes ha₁
  obtain ⟨o₂, ho₂⟩ := Item.putAll_of_takes ha₂
  have h₁ := ho₁ []
  have h₂ := ho₂ []
  rw [List.append_nil] at h₁ h₂
  have hf : 0 ∉ f₁ ++ f₂ := by
    rw [List.mem_append]
    exact not_or.mpr ⟨hf₁, hf₂⟩
  refine ⟨o₁, o₂, ?_, ?_, ?_⟩
  · rw [vformat_eq hf₁, h₁]
  · rw [vformat_eq hf₂, h₂]
  · rw [vformat_eq hf, scan_append hend, Item.putAll_append, ho₁]
    show (Item.putAll mem (scan f₂) a₂ >>= fun r => _) = _
    rw [h₂]
    rfl

/-- Text is copied. -/
theorem vformat_text (hf : 0 ∉ f) (htext : '%'.toUInt8 ∉ f) :
    vformat mem (f ++ [0]) arg = .ok (f, arg) := by
  have hscan := scan_text_append (g := []) htext
  rw [List.append_nil] at hscan
  rw [vformat_eq hf, hscan]
  show Item.putAll mem (f.map .text ++ []) arg = _
  rw [List.append_nil, Item.putAll_text]

/-- A `%` that begins no directive is a character like those behind it. -/
theorem vformat_unknown {w : List UInt8} (hw : 0 ∉ w) (hf : 0 ∉ f) (htext : '%'.toUInt8 ∉ w)
    (hunknown : ∀ it ∈ directives, ¬it.ident <+: w ++ f) :
    vformat mem ('%'.toUInt8 :: w ++ f ++ [0]) arg =
      (vformat mem (f ++ [0]) arg).map fun r => ('%'.toUInt8 :: w ++ r.1, r.2) := by
  have hall : 0 ∉ '%'.toUInt8 :: w ++ f := by
    simp only [List.cons_append, List.mem_cons, List.mem_append, not_or]
    exact ⟨by decide, hw, hf⟩
  have hscan : scan ('%'.toUInt8 :: w ++ f) = ('%'.toUInt8 :: w).map .text ++ scan f := by
    rw [List.cons_append, scan_cons, itemAt_unknown hunknown, List.map_cons, List.cons_append]
    exact congrArg _ (scan_text_append htext)
  rw [vformat_eq hall, vformat_eq hf, hscan, Item.putAll_append, Item.putAll_text]
  show (Item.putAll mem (scan f) arg >>= fun r => _) = _
  cases Item.putAll mem (scan f) arg <;> rfl

/-- The scanner does not get behind the terminator. -/
theorem vformat_ne_error (hf : 0 ∉ f) : vformat mem (f ++ [0]) arg ≠ .error .fmt ∧
    vformat mem (f ++ [0]) arg ≠ .error .loop := by
  rw [vformat_eq hf]
  refine ⟨fun h => ?_, fun h => ?_⟩
  · rcases Item.putAll_error h with h | h <;> cases h
  · rcases Item.putAll_error h with h | h <;> cases h

/-- Format strings compose, text and unknown directives are copied, and the scanner stays in the
string. -/
theorem vformat_laws (mem : UInt64 → Option (List UInt8)) :
    (∀ f₁ f₂ a₁ a₂, 0 ∉ f₁ → 0 ∉ f₂ → ¬Unfinished f₁ → Matching mem f₁ a₁ → Matching mem f₂ a₂ →
      ∃ o₁ o₂, vformat mem (f₁ ++ [0]) a₁ = .ok (o₁, []) ∧
        vformat mem (f₂ ++ [0]) a₂ = .ok (o₂, []) ∧
        vformat mem (f₁ ++ f₂ ++ [0]) (a₁ ++ a₂) = .ok (o₁ ++ o₂, [])) ∧
    (∀ f arg, 0 ∉ f → '%'.toUInt8 ∉ f → vformat mem (f ++ [0]) arg = .ok (f, arg)) ∧
    (∀ w f arg, 0 ∉ w → 0 ∉ f → '%'.toUInt8 ∉ w → (∀ it ∈ directives, ¬it.ident <+: w ++ f) →
      vformat mem ('%'.toUInt8 :: w ++ f ++ [0]) arg =
        (vformat mem (f ++ [0]) arg).map fun r => ('%'.toUInt8 :: w ++ r.1, r.2)) ∧
    ∀ f arg, 0 ∉ f → vformat mem (f ++ [0]) arg ≠ .error .fmt ∧
      vformat mem (f ++ [0]) arg ≠ .error .loop :=
  ⟨fun _ _ _ _ => vformat_append, fun _ _ => vformat_text, fun _ _ _ => vformat_unknown,
    fun _ _ => vformat_ne_error⟩

/-- An item begins at the start of the string, or in the rest. -/
theorem Begins.cases_cons (h : Begins (c :: f) g) :
    g = c :: f ∨ Begins (f.drop (itemAt c f).ident.length) g := by
  rcases Relation.ReflTransGen.cases_head h with rfl | ⟨g', ⟨c', f', heq, rfl⟩, hrest⟩
  · exact .inl rfl
  · cases heq
    exact .inr hrest

/-- Nothing begins in an empty string. -/
theorem Begins.nil (h : Begins [] g) : g = [] := by
  rcases Relation.ReflTransGen.cases_head h with rfl | ⟨g', ⟨c', f', heq, -⟩, -⟩
  · rfl
  · cases heq

/-- A number, and a string that is `NULL`. -/
theorem vformat_laws_pair : ∃ o₁ o₂,
    vformat (fun _ => none) (chars ['%', 'd'] ++ [0]) [42] = .ok (o₁, []) ∧
    vformat (fun _ => none) (chars ['%', 's', '%'] ++ [0]) [0] = .ok (o₂, []) ∧
    vformat (fun _ => none) (chars ['%', 'd'] ++ chars ['%', 's', '%'] ++ [0]) ([42] ++ [0]) =
      .ok (o₁ ++ o₂, []) := by
  refine (vformat_laws fun _ => none).1 _ _ _ _ (by decide) (by decide) ?_ ?_ ?_
  · intro h
    obtain ⟨t, ht, hbegins⟩ := h
    rcases hbegins.cases_cons with heq | hrest
    · cases heq
      revert ht
      decide
    · cases Begins.nil hrest
  · exact rfl
  · exact ⟨.inl rfl, rfl⟩

end KernelAarch64.Common
