/-
  BitcoinSpoon.Loop.Scopes — computations that push and pop a stack.

  Of the stack only its depth is kept. `Shifts m value i j` says that `m`, begun `i` entries
  above any depth, gives `value` and ends `j` entries above it; what is `none` does not
  return. What is proved from 0 holds from every entry on (`Shifts.above`). A computation is
  balanced if it ends where it began (`Balanced`). Nothing here names a program.
-/

namespace BitcoinSpoon.Loop

variable {α β : Type} {i j k n : Nat}

abbrev Scoped := StateT Nat Option

def push : Scoped Unit := fun depth => some ((), depth + 1)

/-- There is nothing to pop at 0. -/
def pop : Scoped Unit := fun depth => if depth = 0 then none else some ((), depth - 1)

/-- What does not touch the stack. -/
def unscoped (value : Option α) : Scoped α := fun depth => value.map (·, depth)

def Shifts (m : Scoped α) (value : Option α) (i j : Nat) : Prop := ∀ depth, m (depth + i) = value.map (·, depth + j)

variable {m : Scoped α} {f : α → Scoped β} {value : Option α} {result : Option β} {a : α}

theorem shifts_pure (a : α) : Shifts (pure a) (some a) i i := fun _ => rfl

theorem shifts_unscoped (value : Option α) : Shifts (unscoped value) value i i := fun _ => rfl

/-- What does not return may be said to end anywhere. -/
theorem shifts_none : Shifts (unscoped (none : Option α)) none i j := fun _ => rfl

theorem shifts_push : Shifts push (some ()) i (i + 1) := fun _ => rfl

theorem shifts_pop : Shifts pop (some ()) (i + 1) i := fun _ => if_neg (Nat.succ_ne_zero _)

theorem Shifts.bind (h : Shifts m (some a) i j) (hf : Shifts (f a) result j k) : Shifts (m >>= f) result i k := by
  intro depth
  show (m (depth + i)).bind _ = _
  rw [h depth]
  exact hf depth

/-- A computation that may not return. -/
theorem Shifts.bind_some (h : Shifts m value i j) (hnone : value = none → result = none)
    (hf : ∀ a, value = some a → Shifts (f a) result j k) : Shifts (m >>= f) result i k := by
  intro depth
  show (m (depth + i)).bind _ = _
  rw [h depth]
  cases hvalue : value with
  | none =>
    rw [hnone hvalue]
    rfl
  | some a => exact hf a hvalue depth

theorem Shifts.above (h : Shifts m value 0 n) : Shifts m value i (i + n) := by
  intro depth
  rw [← Nat.add_assoc]
  exact h (depth + i)

/-- It ends where it began, from every depth. -/
def Balanced (m : Scoped α) : Prop := ∃ value, Shifts m value 0 0

theorem Shifts.balanced_iff (h : Shifts m (some a) 0 n) : Balanced m ↔ n = 0 := by
  constructor
  · rintro ⟨value, hvalue⟩
    have heq := (h 0).symm.trans (hvalue 0)
    cases value with
    | none => cases heq
    | some b => exact (Nat.zero_add n).symm.trans (congrArg Prod.snd (Option.some.inj heq))
  · rintro rfl
    exact ⟨_, h⟩

end BitcoinSpoon.Loop
