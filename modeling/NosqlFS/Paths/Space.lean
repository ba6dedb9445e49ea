import Mathlib.Data.List.Basic
import Mathlib.Logic.Function.Basic

/-!
# Spaces of paths

A space gives values to paths, which are lists of names over an arbitrary type.
Values are put in, taken out and moved with everything below them; two spaces are
compared below a root and outside it.
-/

namespace Paths

variable {κ ν : Type}

abbrev Space (κ ν : Type) : Type := List κ → Option ν

namespace Space

/-! ## Two spaces -/

def AgreeBelow (root : List κ) (first second : Space κ ν) : Prop :=
  ∀ path, root <+: path → first path = second path

def AgreeOutside (root : List κ) (first second : Space κ ν) : Prop :=
  ∀ path, ¬ root <+: path → first path = second path

/-- Everything is below the empty root. -/
theorem agreeBelow_nil_iff {first second : Space κ ν} :
    AgreeBelow [] first second ↔ first = second := by
  constructor
  · exact fun agree => funext fun path => agree path List.nil_prefix
  · rintro rfl
    exact fun _ _ => rfl

theorem agreeOutside_nil (first second : Space κ ν) : AgreeOutside [] first second :=
  fun _ outside => absurd List.nil_prefix outside

variable [DecidableEq κ] (space : Space κ ν) {path root source target : List κ} {value : ν}

/-! ## One path -/

def insert (path : List κ) (value : ν) : Space κ ν := Function.update space path (some value)

def erase (path : List κ) : Space κ ν := Function.update space path none

@[simp]
theorem insert_self : space.insert path value path = some value := Function.update_self ..

theorem insert_of_ne {other : List κ} (hne : other ≠ path) :
    space.insert path value other = space other := Function.update_of_ne hne ..

theorem erase_insert (absent : space path = none) : (space.insert path value).erase path = space := by
  rw [erase, insert, Function.update_idem, ← absent, Function.update_eq_self]

/-! ## A path with everything below it -/

/-- Everything at and below `source` takes the place of everything at and below `target`. -/
def move (source target : List κ) : Space κ ν := fun path =>
  if target <+: path then space (source ++ path.drop target.length)
  else if source <+: path then none
  else space path

theorem move_source (apart : ¬ target <+: source) : space.move source target source = none := by
  unfold move
  rw [if_neg apart, if_pos (List.prefix_refl source)]

end Space

end Paths
