import FileStorage.Memory.Heap

/-!
# Exec — C code that may stop instead of returning
-/

namespace FileStorage

open Memory

/-- Why a piece of C code does not return. -/
inductive Stop where
  | assertion  -- a failed `assert`
  | exit       -- `exit(EXIT_FAILURE)`
  | fault      -- a `NULL`, stale or out-of-bounds access
  | diverge    -- a loop that is still running
deriving DecidableEq, Repr

abbrev Exec (α : Type) := Except Stop α

namespace Exec

variable {α β : Type}

theorem bind_eq_ok {x : Exec α} {f : α → Exec β} {b : β} :
    (x >>= f) = .ok b ↔ ∃ a, x = .ok a ∧ f a = .ok b := by
  cases x with
  | error e => simp [bind, Except.bind]
  | ok a => simp [bind, Except.bind]

theorem bind_eq_error {x : Exec α} {f : α → Exec β} {e : Stop} :
    (x >>= f) = .error e ↔ x = .error e ∨ ∃ a, x = .ok a ∧ f a = .error e := by
  cases x with
  | error e' => simp [bind, Except.bind]
  | ok a => simp [bind, Except.bind]

/-- The code returns something that passes the test. -/
def any (x : Exec α) (p : α → Bool) : Bool :=
  match x with
  | .ok a => p a
  | .error _ => false

theorem any_eq_true {x : Exec α} {p : α → Bool} : x.any p = true ↔ ∃ a, x = .ok a ∧ p a = true := by
  cases x <;> simp [any]

/-- The same for code that returns a value or `NULL`. -/
def anySome (x : Exec (Option α)) (p : α → Bool) : Bool := x.any fun a => a.any p

theorem anySome_eq_true {x : Exec (Option α)} {p : α → Bool} :
    x.anySome p = true ↔ ∃ a, x = .ok (some a) ∧ p a = true := by
  rw [anySome, any_eq_true]
  constructor
  · rintro ⟨o, hx, ho⟩
    obtain ⟨a, rfl, ha⟩ := (Option.any_eq_true p o).mp ho
    exact ⟨a, hx, ha⟩
  · rintro ⟨a, hx, ha⟩
    exact ⟨some a, hx, ha⟩

theorem toOption_eq_some {x : Exec α} {a : α} : x.toOption = some a ↔ x = .ok a := by
  cases x <;> simp [Except.toOption]

@[simp] theorem ok_bind (a : α) (f : α → Exec β) : (Except.ok a >>= f : Exec β) = f a := rfl

@[simp] theorem error_bind (e : Stop) (f : α → Exec β) :
    (Except.error e >>= f : Exec β) = .error e := rfl

@[simp] theorem pure_eq_ok (a : α) : (pure a : Exec α) = .ok a := rfl

@[simp] theorem throw_eq_error (e : Stop) : (throw e : Exec α) = .error e := rfl

end Exec

namespace Memory.Heap

variable {α : Type}

/-- Reads through the pointer `a`. -/
def load (h : Heap α) (a : Addr) : Exec α :=
  match h.read a with
  | some x => .ok x
  | none => .error .fault

/-- Writes a field of the block at `a`. -/
def store (h : Heap α) (a : Addr) (f : α → α) : Exec (Heap α) :=
  match h.read a with
  | some _ => .ok (h.modify a f)
  | none => .error .fault

theorem load_eq_ok {h : Heap α} {a : Addr} {x : α} : h.load a = .ok x ↔ h.read a = some x := by
  unfold load
  cases h.read a <;> simp

theorem load_of_read {h : Heap α} {a : Addr} {x : α} (hr : h.read a = some x) :
    h.load a = .ok x := load_eq_ok.mpr hr

theorem store_of_read {h : Heap α} {a : Addr} {x : α} (hr : h.read a = some x) (f : α → α) :
    h.store a f = .ok (h.modify a f) := by
  simp [store, hr]

end Memory.Heap

end FileStorage
