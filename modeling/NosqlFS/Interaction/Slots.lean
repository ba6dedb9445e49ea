import Mathlib.Data.List.Basic

/-!
# Lowest free slots

A table of slots in which every new value takes the lowest free one.  Values that are
already there keep their slots.
-/

namespace Slots

variable {ε : Type}

abbrev Table (ε : Type) : Type := List (Option ε)

/-- The value in a slot. -/
def lookup : Table ε → Nat → Option ε
  | [], _ => none
  | slot :: _, 0 => slot
  | _ :: rest, n + 1 => lookup rest n

/-- Put a value into the lowest free slot. -/
def allocate (value : ε) : Table ε → Nat × Table ε
  | [] => (0, [some value])
  | none :: rest => (0, some value :: rest)
  | some other :: rest => ((allocate value rest).1 + 1, some other :: (allocate value rest).2)

def release : Table ε → Nat → Table ε
  | [], _ => []
  | _ :: rest, 0 => none :: rest
  | slot :: rest, n + 1 => slot :: release rest n

@[simp]
theorem lookup_allocate (value : ε) (table : Table ε) :
    lookup (allocate value table).2 (allocate value table).1 = some value := by
  induction table with
  | nil => rfl
  | cons slot rest ih =>
      cases slot with
      | none => rfl
      | some other => exact ih

/-- The slot of a new value was free. -/
theorem lookup_allocated (value : ε) (table : Table ε) :
    lookup table (allocate value table).1 = none := by
  induction table with
  | nil => rfl
  | cons slot rest ih =>
      cases slot with
      | none => rfl
      | some other => exact ih

theorem lookup_allocate_of_ne {value : ε} {table : Table ε} {n : Nat}
    (hne : n ≠ (allocate value table).1) : lookup (allocate value table).2 n = lookup table n := by
  induction table generalizing n with
  | nil =>
      cases n with
      | zero => exact absurd rfl hne
      | succ n => rfl
  | cons slot rest ih =>
      cases slot with
      | none =>
          cases n with
          | zero => exact absurd rfl hne
          | succ n => rfl
      | some other =>
          cases n with
          | zero => rfl
          | succ n => exact ih fun same => hne (congrArg Nat.succ same)

theorem lookup_release_of_ne {table : Table ε} {n other : Nat} (hne : n ≠ other) :
    lookup (release table other) n = lookup table n := by
  induction table generalizing n other with
  | nil => rfl
  | cons slot rest ih =>
      cases other with
      | zero =>
          cases n with
          | zero => exact absurd rfl hne
          | succ n => rfl
      | succ other =>
          cases n with
          | zero => rfl
          | succ n => exact ih fun same => hne (congrArg Nat.succ same)

/-! ## Tables that retain their values -/

/-- Every value is still in its slot. -/
def Retains (before after : Table ε) : Prop :=
  ∀ n value, lookup before n = some value → lookup after n = some value

theorem Retains.refl (table : Table ε) : Retains table table := fun _ _ there => there

theorem ne_allocated {value found : ε} {table : Table ε} {n : Nat}
    (there : lookup table n = some found) : n ≠ (allocate value table).1 := by
  rintro rfl
  rw [lookup_allocated] at there
  cases there

/-- A new value takes no slot from another. -/
theorem retains_allocate (value : ε) (table : Table ε) :
    Retains table (allocate value table).2 := by
  intro n found there
  rw [lookup_allocate_of_ne (ne_allocated there), there]

/-- Neither does one that came and went. -/
theorem retains_release_allocate (value : ε) (table : Table ε) :
    Retains table (release (allocate value table).2 (allocate value table).1) := by
  intro n found there
  rw [lookup_release_of_ne (ne_allocated there)]
  exact retains_allocate value table n found there

end Slots
