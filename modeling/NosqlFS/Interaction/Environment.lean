import NosqlFS.Interaction.Execution

/-!
# Environments of a program

An environment answers the calls.  `Follows` lets a world move along a trace under
an arbitrary relation; `run` executes a program against a deterministic machine,
and `run_sound` turns each such execution into a complete run that the machine follows.
-/

namespace Interaction

variable {Call : Type} {Answer : Call → Type} {Local World : Type} {α β : Type}

/-- The world moves along a list of labels, one step for each. -/
inductive Follows {ε : Type} (step : World → ε → World → Prop) : World → List ε → World → Prop where
  | nil (w : World) : Follows step w [] w
  | cons {w middle w' : World} {label : ε} {t : List ε} (first : step w label middle)
      (rest : Follows step middle t w') : Follows step w (label :: t) w'

section Follows

variable {ε : Type} {step : World → ε → World → Prop} {w w' : World}

@[simp]
theorem follows_nil_iff : Follows step w [] w' ↔ w' = w := by
  constructor
  · intro follows
    cases follows
    rfl
  · rintro rfl
    exact .nil _

@[simp]
theorem follows_cons_iff {label : ε} {t : List ε} :
    Follows step w (label :: t) w' ↔ ∃ middle, step w label middle ∧ Follows step middle t w' := by
  constructor
  · intro follows
    cases follows with
    | cons first rest => exact ⟨_, first, rest⟩
  · rintro ⟨middle, first, rest⟩
    exact .cons first rest

@[simp]
theorem follows_append_iff {t u : List ε} :
    Follows step w (t ++ u) w' ↔ ∃ middle, Follows step w t middle ∧ Follows step middle u w' := by
  induction t generalizing w with
  | nil => simp
  | cons label t ih =>
      simp only [List.cons_append, follows_cons_iff, ih]
      constructor
      · rintro ⟨first, hstep, middle, left, right⟩
        exact ⟨middle, ⟨first, hstep, left⟩, right⟩
      · rintro ⟨middle, ⟨first, hstep, left⟩, right⟩
        exact ⟨first, hstep, middle, left, right⟩

/-- What every label of a trace keeps, the trace keeps. -/
theorem Follows.keeps {holds : World → Prop} {t : List ε}
    (kept : ∀ label ∈ t, ∀ v v', step v label v' → holds v → holds v')
    (follows : Follows step w t w') (start : holds w) : holds w' := by
  induction follows with
  | nil => exact start
  | cons first rest ih =>
      exact ih (fun label member => kept label (List.mem_cons_of_mem _ member))
        (kept _ List.mem_cons_self _ _ first start)

/-- Labels none of which moves the world leave it alone together. -/
theorem Follows.unchanged {t : List ε}
    (still : ∀ label ∈ t, ∀ v v', step v label v' → v' = v)
    (follows : Follows step w t w') : w' = w :=
  @Follows.keeps _ _ _ _ _ (fun v => v = w) _
    (fun label member v v' moved same => (still label member v v' moved).trans same) follows rfl

end Follows

/-- A deterministic environment: the answer to a call and the next world, or no
answer at all. -/
abbrev Machine (World : Type) (Call : Type) (Answer : Call → Type) : Type :=
  World → (c : Call) → Option (Answer c × World)

/-- Repeat a body at most `fuel` times while it asks to be repeated. -/
def repeatWhile (body : Local → World → Option (Bool × Local × World)) :
    Nat → Local → World → Option (Local × World)
  | 0, _, _ => none
  | fuel + 1, s, w =>
      match body s w with
      | some (true, s', w') => repeatWhile body fuel s' w'
      | some (false, s', w') => some (s', w')
      | none => none

/-- Execute a program against a machine, each loop for at most `fuel` passes. -/
def run (machine : Machine World Call Answer) (fuel : Nat) {α : Type} :
    Program Call Answer Local α → Local → World → Option (α × Local × World)
  | .done value, s, w => some (value, s, w)
  | .call c next, s, w =>
      match machine w c with
      | some (answer, w') => run machine fuel (next answer) s w'
      | none => none
  | .read next, s, w => run machine fuel (next s) s w
  | .write stored next, _, w => run machine fuel next stored w
  | .loop body next, s, w =>
      match repeatWhile (fun s w => run machine fuel body s w) fuel s w with
      | some (s', w') => run machine fuel next s' w'
      | none => none

section Run

variable {machine : Machine World Call Answer} {fuel : Nat} {s s' : Local} {w w' : World}

theorem run_call (c : Call) (next : Answer c → Program Call Answer Local α) {answer : Answer c}
    (answered : machine w c = some (answer, w')) :
    run machine fuel (.call c next) s w = run machine fuel (next answer) s w' := by
  simp only [run, answered]

theorem run_andThen (program : Program Call Answer Local α)
    (rest : α → Program Call Answer Local β) :
    run machine fuel (program.andThen rest) s w =
      (run machine fuel program s w).bind fun result =>
        run machine fuel (rest result.1) result.2.1 result.2.2 := by
  induction program generalizing s w with
  | done value => rfl
  | call c next ih =>
      simp only [Program.call_andThen, run]
      cases machine w c with
      | none => rfl
      | some reached => exact ih _ rest
  | read next ih => exact ih _ rest
  | write stored next ih => exact ih rest
  | loop body next _ ih =>
      simp only [Program.loop_andThen, run]
      cases repeatWhile (fun s w => run machine fuel body s w) fuel s w with
      | none => rfl
      | some reached => exact ih rest

/-- The relation a machine induces on events. -/
def Machine.Answers (machine : Machine World Call Answer) (w : World)
    (event : Event Call Answer) (w' : World) : Prop :=
  machine w event.call = some (event.answer, w')

/-- Every execution against a machine is a complete run the machine follows. -/
theorem run_sound {program : Program Call Answer Local α} {value : α}
    (executed : run machine fuel program s w = some (value, s', w')) :
    ∃ t, Exec s program t s' value ∧ Follows machine.Answers w t w' := by
  induction program generalizing s w s' w' with
  | done result =>
      cases executed
      exact ⟨[], .done _ _, .nil _⟩
  | call c next ih =>
      simp only [run] at executed
      split at executed
      · next answer middle answered =>
          obtain ⟨t, rest, follows⟩ := ih _ executed
          exact ⟨⟨c, answer⟩ :: t, .call _ rest, .cons answered follows⟩
      · cases executed
  | read next ih =>
      obtain ⟨t, rest, follows⟩ := ih _ executed
      exact ⟨t, .read rest, follows⟩
  | write stored next ih =>
      obtain ⟨t, rest, follows⟩ := ih executed
      exact ⟨t, .write rest, follows⟩
  | loop body next ihBody ih =>
      have passes : ∀ (count : Nat) (s : Local) (w : World) (s₁ : Local) (w₁ : World),
          repeatWhile (fun s w => run machine fuel body s w) count s w = some (s₁, w₁) →
          run machine fuel next s₁ w₁ = some (value, s', w') →
          ∃ t, Exec s (.loop body next) t s' value ∧ Follows machine.Answers w t w' := by
        intro count
        induction count with
        | zero => intro s w s₁ w₁ repeated; cases repeated
        | succ count ihCount =>
            intro s w s₁ w₁ repeated tail
            simp only [repeatWhile] at repeated
            split at repeated
            · next s₂ w₂ pass =>
                obtain ⟨t, passed, follows⟩ := ihBody pass
                obtain ⟨u, rest, followsRest⟩ := ihCount _ _ _ _ repeated tail
                exact ⟨t ++ u, .again passed rest, follows_append_iff.mpr ⟨_, follows, followsRest⟩⟩
            · next s₂ w₂ pass =>
                cases repeated
                obtain ⟨t, passed, follows⟩ := ihBody pass
                obtain ⟨u, rest, followsRest⟩ := ih tail
                exact ⟨t ++ u, .stop passed rest, follows_append_iff.mpr ⟨_, follows, followsRest⟩⟩
            · cases repeated
      simp only [run] at executed
      split at executed
      · next s₁ w₁ repeated => exact passes fuel _ _ _ _ repeated executed
      · cases executed

/-- The machine that answers from a recording and accepts no other call. -/
def recording [DecidableEq Call] : Machine (Trace Call Answer) Call Answer
  | [], _ => none
  | ⟨c, answer⟩ :: t, asked => if same : c = asked then some (same ▸ answer, t) else none

/-- A recording that a program consumes whole is the trace of a complete run. -/
theorem exec_of_recording [DecidableEq Call] {program : Program Call Answer Local α} {value : α}
    {t : Trace Call Answer}
    (replayed : run recording fuel program s t = some (value, s', [])) :
    Exec s program t s' value := by
  obtain ⟨u, runs, follows⟩ := run_sound replayed
  have consumed : ∀ {first last : Trace Call Answer},
      Follows recording.Answers first u last → first = u ++ last := by
    clear runs follows replayed
    induction u with
    | nil => intro first last follows; exact (follows_nil_iff.mp follows).symm
    | cons event u ih =>
        intro first last follows
        obtain ⟨middle, answered, rest⟩ := follows_cons_iff.mp follows
        cases first with
        | nil => cases answered
        | cons head tail =>
            simp only [Machine.Answers, recording] at answered
            split at answered
            · next same =>
                cases event
                cases same
                cases answered
                exact congrArg _ (ih rest)
            · cases answered
  have whole := consumed follows
  rw [List.append_nil] at whole
  rwa [whole]

end Run

end Interaction
