import Mathlib.Data.List.Basic

/-!
# Offering a list to an acceptor

An acceptor is a state machine that takes or refuses each item put before it.
Items are offered in order, and the first refusal ends the offering.
-/

namespace Interaction

/-- The verdict on an item and the next state. -/
abbrev Acceptor (State Item : Type) : Type := State → Item → Bool × State

namespace Acceptor

variable {State Item : Type} (acceptor : Acceptor State Item)

/-- The items put before the acceptor: all of them, or those up to and including the
first that it refuses. -/
def offered : State → List Item → List Item
  | _, [] => []
  | state, item :: items =>
      item :: if (acceptor state item).1 then offered (acceptor state item).2 items else []

/-- One of the items is refused. -/
def refuses : State → List Item → Bool
  | _, [] => false
  | state, item :: items =>
      if (acceptor state item).1 then refuses (acceptor state item).2 items else true

variable {acceptor} {state : State} {item : Item} {items : List Item}

theorem offered_of_accepted (accepted : (acceptor state item).1 = true) :
    acceptor.offered state (item :: items) =
      item :: acceptor.offered (acceptor state item).2 items := by
  rw [offered, if_pos accepted]

theorem offered_of_refused (refused : ¬ (acceptor state item).1 = true) :
    acceptor.offered state (item :: items) = [item] := by
  rw [offered, if_neg refused]

theorem refuses_of_accepted (accepted : (acceptor state item).1 = true) :
    acceptor.refuses state (item :: items) = acceptor.refuses (acceptor state item).2 items := by
  rw [refuses, if_pos accepted]

theorem refuses_of_refused (refused : ¬ (acceptor state item).1 = true) :
    acceptor.refuses state (item :: items) = true := by
  rw [refuses, if_neg refused]

/-- Only a refusal keeps an item back. -/
theorem offered_eq_self (acceptsAll : acceptor.refuses state items = false) :
    acceptor.offered state items = items := by
  induction items generalizing state with
  | nil => rfl
  | cons item items ih =>
      by_cases accepted : (acceptor state item).1 = true
      · rw [refuses_of_accepted accepted] at acceptsAll
        rw [offered_of_accepted accepted, ih acceptsAll]
      · rw [refuses_of_refused accepted] at acceptsAll
        cases acceptsAll

end Acceptor

end Interaction
