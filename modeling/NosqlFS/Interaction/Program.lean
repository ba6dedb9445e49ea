import Mathlib.Logic.Basic

/-!
# Programs that call out

A program is a tree of external calls over one thread-local register.  It is
written once and read in several ways: as a set of complete runs, as a machine
against a deterministic environment, as a verification condition, and as one
thread of a pool.  Nothing here fixes what a call is.
-/

namespace Interaction

/-- One call with the answer it received. -/
structure Event (Call : Type) (Answer : Call → Type) where
  call : Call
  answer : Answer call

/-- The calls of a run in order, each with its answer. -/
abbrev Trace (Call : Type) (Answer : Call → Type) : Type := List (Event Call Answer)

/-- A program that returns a value of the index type.  `loop body next` repeats
`body` while it returns `true` and then continues with `next`. -/
inductive Program (Call : Type) (Answer : Call → Type) (Local : Type) : Type → Type 1 where
  | done {α : Type} (value : α) : Program Call Answer Local α
  | call {α : Type} (c : Call) (next : Answer c → Program Call Answer Local α) :
      Program Call Answer Local α
  | read {α : Type} (next : Local → Program Call Answer Local α) : Program Call Answer Local α
  | write {α : Type} (value : Local) (next : Program Call Answer Local α) :
      Program Call Answer Local α
  | loop {α : Type} (body : Program Call Answer Local Bool)
      (next : Program Call Answer Local α) : Program Call Answer Local α

namespace Program

variable {Call : Type} {Answer : Call → Type} {Local : Type} {α β γ : Type}

/-- Run the first program and pass its value to the second. -/
def andThen {α β : Type} : Program Call Answer Local α →
    (α → Program Call Answer Local β) → Program Call Answer Local β
  | .done value, rest => rest value
  | .call c next, rest => .call c fun answer => (next answer).andThen rest
  | .read next, rest => .read fun register => (next register).andThen rest
  | .write value next, rest => .write value (next.andThen rest)
  | .loop body next, rest => .loop body (next.andThen rest)

instance : Monad (Program Call Answer Local) where
  pure := .done
  bind := andThen

@[simp]
theorem bind_eq (program : Program Call Answer Local α) (rest : α → Program Call Answer Local β) :
    program >>= rest = program.andThen rest := rfl

@[simp]
theorem pure_eq (value : α) : (pure value : Program Call Answer Local α) = .done value := rfl

@[simp]
theorem done_andThen (value : α) (rest : α → Program Call Answer Local β) :
    (Program.done value).andThen rest = rest value := rfl

@[simp]
theorem call_andThen (c : Call) (next : Answer c → Program Call Answer Local α)
    (rest : α → Program Call Answer Local β) :
    (Program.call c next).andThen rest = .call c fun answer => (next answer).andThen rest := rfl

@[simp]
theorem read_andThen (next : Local → Program Call Answer Local α)
    (rest : α → Program Call Answer Local β) :
    (Program.read next).andThen rest = .read fun register => (next register).andThen rest := rfl

@[simp]
theorem write_andThen (value : Local) (next : Program Call Answer Local α)
    (rest : α → Program Call Answer Local β) :
    (Program.write value next).andThen rest = .write value (next.andThen rest) := rfl

@[simp]
theorem loop_andThen (body : Program Call Answer Local Bool) (next : Program Call Answer Local α)
    (rest : α → Program Call Answer Local β) :
    (Program.loop body next).andThen rest = .loop body (next.andThen rest) := rfl

/-- One pass of a loop followed by the decision whether to repeat. -/
def unrolled (body : Program Call Answer Local Bool) (next : Program Call Answer Local α) :
    Program Call Answer Local α :=
  body.andThen fun again => if again then .loop body next else next

theorem andThen_assoc (program : Program Call Answer Local α)
    (middle : α → Program Call Answer Local β) (rest : β → Program Call Answer Local γ) :
    (program.andThen middle).andThen rest =
      program.andThen fun value => (middle value).andThen rest := by
  induction program with
  | done value => rfl
  | call c next ih => exact congrArg (Program.call c) (funext fun answer => ih answer middle)
  | read next ih => exact congrArg Program.read (funext fun register => ih register middle)
  | write value next ih => exact congrArg (Program.write value) (ih middle)
  | loop body next _ ih => exact congrArg (Program.loop body) (ih middle)

theorem unrolled_andThen (body : Program Call Answer Local Bool)
    (next : Program Call Answer Local α) (rest : α → Program Call Answer Local β) :
    (unrolled body next).andThen rest = unrolled body (next.andThen rest) := by
  rw [unrolled, andThen_assoc]
  refine congrArg body.andThen (funext fun again => ?_)
  cases again <;> rfl

end Program

end Interaction
