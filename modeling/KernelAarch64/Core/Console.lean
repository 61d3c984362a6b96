import Mathlib.Tactic.TypeStar

/-!
# How a kernel call ends

A modelled function returns `Except Stop`. It stops short when it reaches `PANIC` (or a failed
`assert`, which is a `PANIC`), when it has to wait for another thread, and when it dereferences a
pointer that does not point to a live object.
-/

namespace KernelAarch64

/-- Why a kernel call does not return in the current state. A panic says its message, since results
about which assertion fails are results about the message; to wait is no error, the caller tries
again later. -/
inductive Stop where
  /-- `PANIC(msg)`: the whole system stops. -/
  | panic (msg : String)
  /-- The call sleeps or spins until another thread changes the state. -/
  | wait
  /-- A dereference of `NULL` or of a freed object. -/
  | fault
  deriving Repr, DecidableEq

/-- The `assert` macro of `console.h`; `text` is the asserted expression. -/
def kassert (p : Prop) [Decidable p] (text : String) : Except Stop Unit :=
  if p then .ok () else .error (.panic ("assertion failed: \"" ++ text ++ "\""))

/-- The `asserts` macro of `console.h`. The message comes out as it stands, formats included. -/
def kasserts (p : Prop) [Decidable p] (text msg : String) : Except Stop Unit :=
  if p then .ok () else .error (.panic ("assertion failed: \"" ++ text ++ "\". " ++ msg))

variable {α β γ α' β' : Type}

/-- A call that returned ran each of its parts to the end. -/
theorem bind_eq_ok {x : Except Stop α} {f : α → Except Stop β} {b : β} :
    x >>= f = .ok b ↔ ∃ a, x = .ok a ∧ f a = .ok b := by
  cases x with
  | error e => simp [bind, Except.bind]
  | ok a => simp [bind, Except.bind]

@[simp] theorem ok_bind (a : α) (f : α → Except Stop β) : (Except.ok a >>= f) = f a := rfl

@[simp] theorem error_bind (e : Stop) (f : α → Except Stop β) :
    ((Except.error e : Except Stop α) >>= f) = .error e := rfl

theorem exists_ok {x : Except Stop α} (h : x.isOk = true) : ∃ a, x = .ok a := by
  cases x with
  | error e => cases h
  | ok a => exact ⟨a, rfl⟩

theorem toOption_eq_some {x : Except Stop α} {a : α} : x.toOption = some a ↔ x = .ok a := by
  cases x <;> simp [Except.toOption]

theorem kassert_eq_ok {p : Prop} [Decidable p] {text : String} {u : Unit} :
    kassert p text = .ok u ↔ p := by
  unfold kassert
  split <;> simp [*]

theorem kassert_of {p : Prop} [Decidable p] (h : p) (text : String) : kassert p text = .ok () :=
  if_pos h

theorem kasserts_of {p : Prop} [Decidable p] (h : p) (text msg : String) :
    kasserts p text msg = .ok () :=
  if_pos h

theorem kasserts_eq_ok {p : Prop} [Decidable p] {text msg : String} {u : Unit} :
    kasserts p text msg = .ok u ↔ p := by
  unfold kasserts
  split <;> simp [*]

/-! ## Parts of a result -/

theorem map_eq_ok {x : Except Stop α} {f : α → β} {b : β} (h : x.map f = .ok b) :
    ∃ a, x = .ok a ∧ f a = b := by
  cases x with
  | error e => cases h
  | ok a => exact ⟨a, rfl, Except.ok.inj h⟩

/-- Projections go through calls in sequence. -/
theorem map_bind_eq {x : Except Stop α} {x' : Except Stop α'} {f : α → α'}
    {g : α → Except Stop β} {g' : α' → Except Stop β'} {p : β → β'} (hx : x.map f = x')
    (hg : ∀ a, (g a).map p = g' (f a)) : (x >>= g).map p = x' >>= g' := by
  subst hx
  cases x with
  | error e => rfl
  | ok a => exact hg a

/-- A call that carries something along. -/
theorem bind_eq_map {x : Except Stop α} {f : α → α'} {g : α → Except Stop β}
    {g' : α' → Except Stop β'} {p : β → β'} (hg : ∀ a, g' (f a) = (g a).map p) :
    (x.map f >>= g') = (x >>= g).map p := by
  cases x with
  | error e => rfl
  | ok a => exact hg a

theorem bind_congr_map {x : Except Stop α} {g : α → Except Stop β} {g' : α → Except Stop β'}
    {p : β → β'} (hg : ∀ a, g' a = (g a).map p) : (x >>= g') = (x >>= g).map p := by
  cases x with
  | error e => rfl
  | ok a => exact hg a

theorem map_foldlM_eq {ι : Type} {f : α → ι → Except Stop α} {f' : α' → ι → Except Stop α'}
    {p : α → α'} (h : ∀ a i, (f a i).map p = f' (p a) i) (l : List ι) (a : α) :
    (l.foldlM f a).map p = l.foldlM f' (p a) := by
  induction l generalizing a with
  | nil => rfl
  | cons i l ih =>
    rw [List.foldlM_cons, List.foldlM_cons]
    exact map_bind_eq (h a i) ih

theorem map_map_fst {x : Except Stop α} {b : β} : (x.map (·, b)).map Prod.fst = x := by
  cases x <;> rfl

theorem map_map_snd {x : Except Stop (α × γ)} {b : β} :
    (x.map fun r => (r.1, r.2, b)).map (Prod.map id Prod.fst) = x := by
  cases x <;> rfl

end KernelAarch64
