import NosqlFS.Interaction.Program

/-!
# Complete runs and single emissions

`Exec` relates a program to the traces of its complete runs.  `Emits` and
`Returns` cut the same runs one call at a time, which is what a scheduler sees.
`exec_cons_iff` and `exec_nil_iff` say that both readings describe one set of runs.
-/

namespace Interaction

variable {Call : Type} {Answer : Call → Type} {Local : Type} {α β : Type}

/-- `Exec s p t s' v`: started with register `s`, the program makes exactly the
calls of `t`, given these answers, and returns `v` with register `s'`. -/
inductive Exec : {α : Type} → Local → Program Call Answer Local α → Trace Call Answer →
    Local → α → Prop where
  | done {α : Type} (s : Local) (value : α) : Exec s (.done value) [] s value
  | call {α : Type} {s s' : Local} {c : Call} {next : Answer c → Program Call Answer Local α}
      {t : Trace Call Answer} {value : α} (answer : Answer c)
      (rest : Exec s (next answer) t s' value) : Exec s (.call c next) (⟨c, answer⟩ :: t) s' value
  | read {α : Type} {s s' : Local} {next : Local → Program Call Answer Local α}
      {t : Trace Call Answer} {value : α} (rest : Exec s (next s) t s' value) :
      Exec s (.read next) t s' value
  | write {α : Type} {s s' stored : Local} {next : Program Call Answer Local α}
      {t : Trace Call Answer} {value : α} (rest : Exec stored next t s' value) :
      Exec s (.write stored next) t s' value
  | stop {α : Type} {s middle s' : Local} {body : Program Call Answer Local Bool}
      {next : Program Call Answer Local α} {t u : Trace Call Answer} {value : α}
      (pass : Exec s body t middle false) (rest : Exec middle next u s' value) :
      Exec s (.loop body next) (t ++ u) s' value
  | again {α : Type} {s middle s' : Local} {body : Program Call Answer Local Bool}
      {next : Program Call Answer Local α} {t u : Trace Call Answer} {value : α}
      (pass : Exec s body t middle true) (rest : Exec middle (.loop body next) u s' value) :
      Exec s (.loop body next) (t ++ u) s' value

section Inversion

variable {s s' : Local} {t : Trace Call Answer}

@[simp]
theorem exec_done_iff {value result : α} :
    Exec s (.done value : Program Call Answer Local α) t s' result ↔
      t = [] ∧ s' = s ∧ result = value := by
  constructor
  · intro run
    cases run
    exact ⟨rfl, rfl, rfl⟩
  · rintro ⟨rfl, rfl, rfl⟩
    exact .done _ _

@[simp]
theorem exec_call_iff {c : Call} {next : Answer c → Program Call Answer Local α} {value : α} :
    Exec s (.call c next) t s' value ↔
      ∃ answer u, t = ⟨c, answer⟩ :: u ∧ Exec s (next answer) u s' value := by
  constructor
  · intro run
    cases run with
    | call answer rest => exact ⟨answer, _, rfl, rest⟩
  · rintro ⟨answer, u, rfl, rest⟩
    exact .call answer rest

@[simp]
theorem exec_read_iff {next : Local → Program Call Answer Local α} {value : α} :
    Exec s (.read next) t s' value ↔ Exec s (next s) t s' value := by
  constructor
  · intro run
    cases run with
    | read rest => exact rest
  · exact .read

@[simp]
theorem exec_write_iff {stored : Local} {next : Program Call Answer Local α} {value : α} :
    Exec s (.write stored next) t s' value ↔ Exec stored next t s' value := by
  constructor
  · intro run
    cases run with
    | write rest => exact rest
  · exact .write

/-- Runs of a sequence are runs of its first part followed by runs of the rest. -/
theorem exec_andThen_iff {program : Program Call Answer Local α}
    {rest : α → Program Call Answer Local β} {value : β} :
    Exec s (program.andThen rest) t s' value ↔
      ∃ t₁ t₂ middle result, t = t₁ ++ t₂ ∧ Exec s program t₁ middle result ∧
        Exec middle (rest result) t₂ s' value := by
  constructor
  · intro run
    induction program generalizing s t with
    | done result => exact ⟨[], t, s, result, rfl, .done _ _, run⟩
    | call c next ih =>
        obtain ⟨answer, u, rfl, inner⟩ := exec_call_iff.mp run
        obtain ⟨t₁, t₂, middle, result, rfl, first, second⟩ := ih answer inner
        exact ⟨_, t₂, middle, result, rfl, .call answer first, second⟩
    | read next ih =>
        obtain ⟨t₁, t₂, middle, result, rfl, first, second⟩ := ih s (exec_read_iff.mp run)
        exact ⟨t₁, t₂, middle, result, rfl, .read first, second⟩
    | write stored next ih =>
        obtain ⟨t₁, t₂, middle, result, rfl, first, second⟩ := ih (exec_write_iff.mp run)
        exact ⟨t₁, t₂, middle, result, rfl, .write first, second⟩
    | loop body next ihBody ih =>
        generalize heq : (Program.loop body next).andThen rest = whole at run
        rw [Program.loop_andThen] at heq
        induction run with
        | stop pass tail _ _ =>
            cases heq
            obtain ⟨t₁, t₂, middle, result, rfl, first, second⟩ := ih tail
            exact ⟨_, t₂, middle, result, (List.append_assoc _ _ _).symm,
              .stop pass first, second⟩
        | again pass _ _ ihTail =>
            cases heq
            obtain ⟨t₁, t₂, middle, result, rfl, first, second⟩ := ihTail ihBody ih rfl
            exact ⟨_, t₂, middle, result, (List.append_assoc _ _ _).symm,
              .again pass first, second⟩
        | _ => cases heq
  · rintro ⟨t₁, t₂, middle, result, rfl, first, second⟩
    induction first with
    | done => exact second
    | call answer _ ih => exact .call answer (ih second)
    | read _ ih => exact .read (ih second)
    | write _ ih => exact .write (ih second)
    | stop pass _ _ ih =>
        rw [List.append_assoc]
        exact .stop pass (ih second)
    | again pass _ _ ih =>
        rw [List.append_assoc]
        exact .again pass (ih second)

/-- A loop runs as one pass followed by the decision whether to repeat. -/
theorem exec_loop_iff {body : Program Call Answer Local Bool}
    {next : Program Call Answer Local α} {value : α} :
    Exec s (.loop body next) t s' value ↔ Exec s (Program.unrolled body next) t s' value := by
  rw [Program.unrolled, exec_andThen_iff]
  constructor
  · intro run
    cases run with
    | stop pass rest => exact ⟨_, _, _, false, rfl, pass, rest⟩
    | again pass rest => exact ⟨_, _, _, true, rfl, pass, rest⟩
  · rintro ⟨t₁, t₂, middle, result, rfl, pass, rest⟩
    cases result with
    | false => exact .stop pass rest
    | true => exact .again pass rest

/-- What every pass and every continuation adds to a trace holds of the whole loop. -/
theorem Exec.loop_traces {holds : Trace Call Answer → Prop}
    (append : ∀ {t u}, holds t → holds u → holds (t ++ u))
    {body : Program Call Answer Local Bool} {next : Program Call Answer Local α}
    (passes : ∀ {s t s' again}, Exec s body t s' again → holds t)
    (continues : ∀ {s t s' value}, Exec s next t s' value → holds t) {value : α}
    (run : Exec s (.loop body next) t s' value) : holds t := by
  generalize heq : Program.loop body next = whole at run
  induction run with
  | stop pass rest _ _ =>
      cases heq
      exact append (passes pass) (continues rest)
  | again pass _ _ ih =>
      cases heq
      exact append (passes pass) (ih continues rfl)
  | _ => cases heq

end Inversion

/-! ## One emission at a time -/

/-- The program reaches its next call, makes it, and is left with a residual
register and program. -/
inductive Emits : {α : Type} → Local → Program Call Answer Local α → Event Call Answer →
    Local → Program Call Answer Local α → Prop where
  | call {α : Type} {s : Local} {c : Call} {next : Answer c → Program Call Answer Local α}
      (answer : Answer c) : Emits s (.call c next) ⟨c, answer⟩ s (next answer)
  | read {α : Type} {s s' : Local} {next : Local → Program Call Answer Local α}
      {event : Event Call Answer} {residual : Program Call Answer Local α}
      (rest : Emits s (next s) event s' residual) : Emits s (.read next) event s' residual
  | write {α : Type} {s stored s' : Local} {next residual : Program Call Answer Local α}
      {event : Event Call Answer} (rest : Emits stored next event s' residual) :
      Emits s (.write stored next) event s' residual
  | unroll {α : Type} {s s' : Local} {body : Program Call Answer Local Bool}
      {next residual : Program Call Answer Local α} {event : Event Call Answer}
      (rest : Emits s (Program.unrolled body next) event s' residual) :
      Emits s (.loop body next) event s' residual

/-- The program returns without another call. -/
inductive Returns : {α : Type} → Local → Program Call Answer Local α → Local → α → Prop where
  | done {α : Type} (s : Local) (value : α) : Returns s (.done value) s value
  | read {α : Type} {s s' : Local} {next : Local → Program Call Answer Local α} {value : α}
      (rest : Returns s (next s) s' value) : Returns s (.read next) s' value
  | write {α : Type} {s stored s' : Local} {next : Program Call Answer Local α} {value : α}
      (rest : Returns stored next s' value) : Returns s (.write stored next) s' value
  | unroll {α : Type} {s s' : Local} {body : Program Call Answer Local Bool}
      {next : Program Call Answer Local α} {value : α}
      (rest : Returns s (Program.unrolled body next) s' value) :
      Returns s (.loop body next) s' value

theorem Returns.andThen {program : Program Call Answer Local α}
    {rest : α → Program Call Answer Local β} {s middle s' : Local} {result : α} {value : β}
    (first : Returns s program middle result) (second : Returns middle (rest result) s' value) :
    Returns s (program.andThen rest) s' value := by
  induction first with
  | done => exact second
  | read _ ih => exact .read (ih second)
  | write _ ih => exact .write (ih second)
  | unroll _ ih =>
      rw [Program.loop_andThen]
      exact .unroll (Program.unrolled_andThen .. ▸ ih second)

theorem Returns.andThen_emits {program : Program Call Answer Local α}
    {rest : α → Program Call Answer Local β} {s middle s' : Local} {result : α}
    {event : Event Call Answer} {residual : Program Call Answer Local β}
    (first : Returns s program middle result)
    (second : Emits middle (rest result) event s' residual) :
    Emits s (program.andThen rest) event s' residual := by
  induction first with
  | done => exact second
  | read _ ih => exact .read (ih second)
  | write _ ih => exact .write (ih second)
  | unroll _ ih =>
      rw [Program.loop_andThen]
      exact .unroll (Program.unrolled_andThen .. ▸ ih second)

theorem Emits.andThen {program residual : Program Call Answer Local α}
    (rest : α → Program Call Answer Local β) {s s' : Local} {event : Event Call Answer}
    (first : Emits s program event s' residual) :
    Emits s (program.andThen rest) event s' (residual.andThen rest) := by
  induction first with
  | call answer => exact .call answer
  | read _ ih => exact .read ih
  | write _ ih => exact .write ih
  | unroll _ ih =>
      rw [Program.loop_andThen]
      exact .unroll (Program.unrolled_andThen .. ▸ ih)

theorem Returns.exec {program : Program Call Answer Local α} {s s' : Local} {value : α}
    (returns : Returns s program s' value) : Exec s program [] s' value := by
  induction returns with
  | done => exact .done _ _
  | read _ ih => exact .read ih
  | write _ ih => exact .write ih
  | unroll _ ih => exact exec_loop_iff.mpr ih

theorem Emits.exec {program residual : Program Call Answer Local α} {s middle s' : Local}
    {event : Event Call Answer} {t : Trace Call Answer} {value : α}
    (emits : Emits s program event middle residual) (rest : Exec middle residual t s' value) :
    Exec s program (event :: t) s' value := by
  induction emits with
  | call answer => exact .call answer rest
  | read _ ih => exact .read (ih rest)
  | write _ ih => exact .write (ih rest)
  | unroll _ ih => exact exec_loop_iff.mpr (ih rest)

/-- A complete run either returns at once or makes a first call and goes on. -/
theorem Exec.cut {program : Program Call Answer Local α} {s s' : Local}
    {t : Trace Call Answer} {value : α} (run : Exec s program t s' value) :
    (t = [] ∧ Returns s program s' value) ∨
      ∃ event u middle residual, t = event :: u ∧ Emits s program event middle residual ∧
        Exec middle residual u s' value := by
  induction run with
  | done => exact .inl ⟨rfl, .done _ _⟩
  | call answer rest => exact .inr ⟨_, _, _, _, rfl, .call answer, rest⟩
  | read _ ih =>
      obtain ⟨rfl, returns⟩ | ⟨event, u, middle, residual, rfl, emits, rest⟩ := ih
      · exact .inl ⟨rfl, .read returns⟩
      · exact .inr ⟨event, u, middle, residual, rfl, .read emits, rest⟩
  | write _ ih =>
      obtain ⟨rfl, returns⟩ | ⟨event, u, middle, residual, rfl, emits, rest⟩ := ih
      · exact .inl ⟨rfl, .write returns⟩
      · exact .inr ⟨event, u, middle, residual, rfl, .write emits, rest⟩
  | stop _ tail ihPass ihTail =>
      obtain ⟨rfl, passed⟩ | ⟨event, u, middle, residual, rfl, emits, rest⟩ := ihPass
      · obtain ⟨rfl, returns⟩ | ⟨event, u, middle, residual, rfl, emits, rest⟩ := ihTail
        · exact .inl ⟨rfl, .unroll (passed.andThen returns)⟩
        · exact .inr ⟨event, u, middle, residual, rfl,
            .unroll (passed.andThen_emits emits), rest⟩
      · exact .inr ⟨event, _, middle, _, rfl, .unroll (emits.andThen _),
          exec_andThen_iff.mpr ⟨_, _, _, _, rfl, rest, tail⟩⟩
  | again _ tail ihPass ihTail =>
      obtain ⟨rfl, passed⟩ | ⟨event, u, middle, residual, rfl, emits, rest⟩ := ihPass
      · obtain ⟨rfl, returns⟩ | ⟨event, u, middle, residual, rfl, emits, rest⟩ := ihTail
        · exact .inl ⟨rfl, .unroll (passed.andThen returns)⟩
        · exact .inr ⟨event, u, middle, residual, rfl,
            .unroll (passed.andThen_emits emits), rest⟩
      · exact .inr ⟨event, _, middle, _, rfl, .unroll (emits.andThen _),
          exec_andThen_iff.mpr ⟨_, _, _, _, rfl, rest, tail⟩⟩

theorem exec_nil_iff {program : Program Call Answer Local α} {s s' : Local} {value : α} :
    Exec s program [] s' value ↔ Returns s program s' value := by
  constructor
  · intro run
    obtain ⟨_, returns⟩ | ⟨_, _, _, _, impossible, _⟩ := run.cut
    · exact returns
    · cases impossible
  · exact Returns.exec

theorem exec_cons_iff {program : Program Call Answer Local α} {s s' : Local}
    {event : Event Call Answer} {t : Trace Call Answer} {value : α} :
    Exec s program (event :: t) s' value ↔
      ∃ middle residual, Emits s program event middle residual ∧
        Exec middle residual t s' value := by
  constructor
  · intro run
    obtain ⟨impossible, _⟩ | ⟨_, _, middle, residual, heq, emits, rest⟩ := run.cut
    · cases impossible
    · cases heq
      exact ⟨middle, residual, emits, rest⟩
  · rintro ⟨middle, residual, emits, rest⟩
    exact emits.exec rest

end Interaction
