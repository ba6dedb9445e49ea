import NosqlFS.Interaction.Environment

/-!
# Programs that return

A program without loops returns against every environment that answers.  A loop
returns when each of its passes does and every pass that asks for another one
lowers a variant.
-/

namespace Interaction

variable {Call : Type} {Answer : Call → Type} {Local World View : Type} {α β : Type}

def LoopFree {α : Type} : Program Call Answer Local α → Prop
  | .done _ => True
  | .call _ next => ∀ answer, LoopFree (next answer)
  | .read next => ∀ register, LoopFree (next register)
  | .write _ next => LoopFree next
  | .loop _ _ => False

theorem LoopFree.andThen {program : Program Call Answer Local α}
    {rest : α → Program Call Answer Local β} (first : LoopFree program)
    (second : ∀ value, LoopFree (rest value)) : LoopFree (program.andThen rest) := by
  induction program with
  | done value => exact second value
  | call c next ih => exact fun answer => ih answer (first answer) second
  | read next ih => exact fun register => ih register (first register) second
  | write stored next ih => exact ih first second
  | loop body next => exact first.elim

/-- The environment answers every call. -/
def Machine.Responsive (machine : Machine World Call Answer) : Prop :=
  ∀ w c, ∃ reached, machine w c = some reached

/-- The program returns within the fuel. -/
def Finishes (machine : Machine World Call Answer) (fuel : Nat)
    (program : Program Call Answer Local α) (s : Local) (w : World) : Prop :=
  ∃ value s' w', run machine fuel program s w = some (value, s', w')

section Finishes

variable {machine : Machine World Call Answer} {fuel : Nat} {s : Local} {w : World}

theorem finishes_of_loopFree (responsive : machine.Responsive)
    {program : Program Call Answer Local α} (straight : LoopFree program) :
    Finishes machine fuel program s w := by
  induction program generalizing s w with
  | done value => exact ⟨value, s, w, rfl⟩
  | call c next ih =>
      obtain ⟨⟨answer, middle⟩, answered⟩ := responsive w c
      obtain ⟨value, s', w', returned⟩ := @ih answer s middle (straight answer)
      exact ⟨value, s', w', (run_call c next answered).trans returned⟩
  | read next ih => exact ih s (straight s)
  | write stored next ih => exact ih straight
  | loop body next => exact straight.elim

theorem finishes_andThen {program : Program Call Answer Local α}
    {rest : α → Program Call Answer Local β} (first : Finishes machine fuel program s w)
    (second : ∀ value s' w', run machine fuel program s w = some (value, s', w') →
      Finishes machine fuel (rest value) s' w') :
    Finishes machine fuel (program.andThen rest) s w := by
  obtain ⟨value, s', w', returned⟩ := first
  obtain ⟨result, s'', w'', finished⟩ := second value s' w' returned
  refine ⟨result, s'', w'', ?_⟩
  rw [run_andThen, returned, Option.bind_some, finished]

/-- A loop leaves its last pass once the fuel exceeds the variant. -/
theorem repeatWhile_finishes {body : Local → World → Option (Bool × Local × World)}
    {variant : World → Nat}
    (passes : ∀ s w, ∃ again s' w', body s w = some (again, s', w') ∧
      (again = true → variant w' < variant w)) (enough : variant w < fuel) :
    ∃ s' w', repeatWhile body fuel s w = some (s', w') := by
  induction fuel generalizing s w with
  | zero => exact absurd enough (Nat.not_lt_zero _)
  | succ fuel ih =>
      obtain ⟨again, s', w', passed, lower⟩ := passes s w
      simp only [repeatWhile, passed]
      cases again with
      | false => exact ⟨s', w', rfl⟩
      | true => exact ih (Nat.lt_of_lt_of_le (lower rfl) (Nat.le_of_lt_succ enough))

theorem finishes_loop {body : Program Call Answer Local Bool}
    {next : Program Call Answer Local α} {variant : World → Nat}
    (passes : ∀ s w, ∃ again s' w', run machine fuel body s w = some (again, s', w') ∧
      (again = true → variant w' < variant w)) (enough : variant w < fuel)
    (rest : ∀ s w, Finishes machine fuel next s w) :
    Finishes machine fuel (.loop body next) s w := by
  obtain ⟨s', w', repeated⟩ := @repeatWhile_finishes _ _ fuel s w
    (fun s w => run machine fuel body s w) variant passes enough
  obtain ⟨value, s'', w'', finished⟩ := rest s' w'
  refine ⟨value, s'', w'', ?_⟩
  simp only [run, repeated, finished]

end Finishes

/-! ## Worlds seen from outside -/

/-- What moves a world moves any picture of it that the steps respect. -/
theorem Follows.seen {ε : Type} {step : World → ε → World → Prop}
    {seenStep : View → ε → View → Prop} {view : World → View}
    (respects : ∀ w label w', step w label w' → seenStep (view w) label (view w'))
    {w w' : World} {t : List ε} (follows : Follows step w t w') :
    Follows seenStep (view w) t (view w') := by
  induction follows with
  | nil w => exact .nil _
  | cons first _ ih => exact .cons (respects _ _ _ first) ih

/-- A quantity that no step raises ends no higher than it began. -/
theorem Follows.le_start {ε : Type} {step : World → ε → World → Prop} {measure : World → Nat}
    (lowers : ∀ w label w', step w label w' → measure w' ≤ measure w) {w w' : World}
    {t : List ε} (follows : Follows step w t w') : measure w' ≤ measure w :=
  @Follows.keeps _ _ _ _ _ (fun v => measure v ≤ measure w) _
    (fun label _ v v' moved below => Nat.le_trans (lowers v label v' moved) below)
    follows (Nat.le_refl _)

end Interaction
