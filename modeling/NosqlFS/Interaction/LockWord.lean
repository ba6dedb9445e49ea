import Mathlib.Data.Int.Basic
import Mathlib.Order.Basic

/-!
# A lock in one word

A word counts the readers of a lock; a writer makes it minus one.  A writer that has to
wait adds an offset that makes the word negative, so that no more readers get in; the
last reader takes the offset away.
-/

namespace LockWord

/-- The word of a lock with so many readers and writers. -/
def Encodes (offset : Int) (readers writers : Nat) (word : Int) : Prop :=
  writers = 0 ∧ (word = readers ∨ 0 < readers ∧ word = readers + offset) ∨
    writers = 1 ∧ readers = 0 ∧ word = -1

/-- The word after a reader has left. -/
def release (offset word : Int) : Int := if word - 1 = offset then 0 else word - 1

/-- What can be asserted of a lock that somebody reads. -/
def IsRead (offset word : Int) : Prop := ¬ (word = 0 ∨ word = offset ∨ word = -1)

variable {offset word : Int} {readers writers : Nat}

theorem encodes_free : Encodes offset 0 0 0 := .inl ⟨rfl, .inl rfl⟩

theorem encodes_written : Encodes offset 0 1 (-1) := .inr ⟨rfl, rfl, rfl⟩

namespace Encodes

/-- As long as the readers do not add up to the offset, the word tells whether it is free. -/
theorem free_of_eq_zero (encodes : Encodes offset readers writers word)
    (few : (readers : Int) + offset < -1) (zero : word = 0) : readers = 0 ∧ writers = 0 := by
  rcases encodes with ⟨rfl, rfl | ⟨positive, rfl⟩⟩ | ⟨rfl, rfl, rfl⟩ <;> omega

/-- A lock is not written while somebody reads it. -/
theorem excludes (encodes : Encodes offset readers writers word) : readers = 0 ∨ writers = 0 := by
  rcases encodes with ⟨none, -⟩ | ⟨-, none, -⟩
  · exact .inr none
  · exact .inl none

theorem single (encodes : Encodes offset readers writers word) : writers ≤ 1 := by
  rcases encodes with ⟨none, -⟩ | ⟨one, -⟩ <;> omega

theorem eq_of_written (encodes : Encodes offset readers writers word) (written : 0 < writers) :
    word = -1 := by
  rcases encodes with ⟨none, -⟩ | ⟨-, -, same⟩
  · omega
  · exact same

theorem ne_zero_of_read (encodes : Encodes offset readers writers word) (read : 0 < readers)
    (few : (readers : Int) + offset < -1) : word ≠ 0 ∧ word ≠ -1 := by
  rcases encodes with ⟨rfl, rfl | ⟨positive, rfl⟩⟩ | ⟨rfl, rfl, rfl⟩ <;> omega

/-- A reader gets in if the word is not negative. -/
theorem read (encodes : Encodes offset readers writers word) (open_ : 0 ≤ word)
    (few : (readers : Int) + offset < -1) : Encodes offset (readers + 1) writers (word + 1) := by
  rcases encodes with ⟨rfl, rfl | ⟨positive, rfl⟩⟩ | ⟨rfl, rfl, rfl⟩
  · exact .inl ⟨rfl, .inl (by omega)⟩
  · omega
  · omega

/-- A reader that leaves finds its lock as it should, and leaves it so. -/
theorem unread (encodes : Encodes offset (readers + 1) writers word) (negative : offset < -1)
    (few : ((readers + 1 : Nat) : Int) + offset < -1) :
    IsRead offset word ∧ Encodes offset readers writers (release offset word) := by
  unfold IsRead release
  rcases encodes with ⟨rfl, rfl | ⟨positive, rfl⟩⟩ | ⟨rfl, wrong, rfl⟩
  · refine ⟨by omega, ?_⟩
    rw [if_neg (by omega)]
    exact .inl ⟨rfl, .inl (by omega)⟩
  · refine ⟨by omega, ?_⟩
    split
    · exact .inl ⟨rfl, .inl (by omega)⟩
    · exact .inl ⟨rfl, .inr ⟨by omega, by omega⟩⟩
  · omega

/-- A writer that has to wait leaves its mark. -/
theorem wait (encodes : Encodes offset readers writers word) (read : 0 < word)
    (few : (readers : Int) + offset < -1) :
    Encodes offset readers writers (word + offset) := by
  rcases encodes with ⟨rfl, rfl | ⟨positive, rfl⟩⟩ | ⟨rfl, rfl, rfl⟩
  · exact .inl ⟨rfl, .inr ⟨by omega, rfl⟩⟩
  · omega
  · omega

end Encodes

end LockWord
