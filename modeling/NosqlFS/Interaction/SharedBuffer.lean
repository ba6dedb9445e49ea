import Mathlib.Data.List.Basic
import Mathlib.Logic.Function.Basic

/-!
# Writers that share a buffer

Writers append records to one log.  A record is made in three actions: its head is put
into a buffer that all writers share, the buffer is appended to the log, and the body
is appended after it.  `Orderly` schedules are those in which a writer appends the head
it put there itself and is alone until its body follows; under them the log consists of
whole records.
-/

namespace SharedBuffer

variable {β : Type}

inductive Action (β : Type) where
  | fill (head : List β)
  | flush
  | print (body : List β)

structure State (β : Type) where
  buffer : List β
  log : List β

def State.apply (w : State β) : Action β → State β
  | .fill head => { w with buffer := head }
  | .flush => { w with log := w.log ++ w.buffer }
  | .print body => { w with log := w.log ++ body }

/-- Actions in order, each with its writer. -/
abbrev Schedule (β : Type) : Type := List (Nat × Action β)

def State.run (w : State β) (schedule : Schedule β) : State β :=
  schedule.foldl (fun w entry => w.apply entry.2) w

/-- The part of one writer in a list of things with their writers. -/
def ofWriter {α : Type} (i : Nat) (entries : List (Nat × α)) : List α :=
  entries.filterMap fun entry => if entry.1 = i then some entry.2 else none

@[simp]
theorem ofWriter_nil {α : Type} (i : Nat) : ofWriter i ([] : List (Nat × α)) = [] := rfl

@[simp]
theorem ofWriter_cons_self {α : Type} (i : Nat) (first : α) (rest : List (Nat × α)) :
    ofWriter i ((i, first) :: rest) = first :: ofWriter i rest := by
  simp [ofWriter]

theorem ofWriter_cons_ne {α : Type} {i j : Nat} (hne : j ≠ i) (first : α)
    (rest : List (Nat × α)) : ofWriter i ((j, first) :: rest) = ofWriter i rest := by
  simp [ofWriter, hne]

/-! ## Records -/

structure Record (β : Type) where
  head : List β
  body : List β

def Record.text (record : Record β) : List β := record.head ++ record.body

/-- The records of a writer's own actions, given the head it put last. -/
def recordsFrom : List β → List (Action β) → List (Record β)
  | _, [] => []
  | _, .fill head :: actions => recordsFrom head actions
  | own, .flush :: actions => recordsFrom own actions
  | own, .print body :: actions => ⟨own, body⟩ :: recordsFrom own actions

/-- A flush is followed by a print before any other action; the flag says that a print
is owed. -/
def Alternates : Bool → List (Action β) → Prop
  | owed, [] => owed = false
  | owed, .fill _ :: actions => owed = false ∧ Alternates false actions
  | owed, .flush :: actions => owed = false ∧ Alternates true actions
  | owed, .print _ :: actions => owed = true ∧ Alternates false actions

theorem Alternates.append {owed : Bool} {actions more : List (Action β)}
    (first : Alternates owed actions) (second : Alternates false more) :
    Alternates owed (actions ++ more) := by
  induction actions generalizing owed with
  | nil =>
      obtain rfl : owed = false := first
      exact second
  | cons action actions ih => cases action <;> exact ⟨first.1, ih first.2⟩

/-- The log has grown by whole records, and those of each writer are the given ones. -/
def Whole (before : List β) (expected : Nat → List (Record β)) (after : List β) : Prop :=
  ∃ records : List (Nat × Record β),
    after = before ++ (records.map fun entry => entry.2.text).flatten ∧
      ∀ i, ofWriter i records = expected i

/-! ## Orderly schedules -/

/-- The buffer, the head that each writer put last, and the writer in the middle of a
record. -/
structure Monitor (β : Type) where
  buffer : List β
  own : Nat → List β
  writing : Option Nat

/-- Whenever a writer appends the buffer, nobody is in the middle of a record and the
buffer holds what this writer put there. -/
def Orderly : Monitor β → Schedule β → Prop
  | _, [] => True
  | m, (i, .fill head) :: rest => Orderly ⟨head, Function.update m.own i head, m.writing⟩ rest
  | m, (i, .flush) :: rest =>
      m.writing = none ∧ m.buffer = m.own i ∧ Orderly { m with writing := some i } rest
  | m, (_, .print _) :: rest => Orderly { m with writing := none } rest

/-- The head in the log whose body is still to come. -/
def Monitor.pending (m : Monitor β) : List β := m.writing.elim [] m.own

/-- Every writer is where the monitor has it. -/
def Monitor.Tracks (m : Monitor β) (schedule : Schedule β) : Prop :=
  ∀ i, Alternates (decide (m.writing = some i)) (ofWriter i schedule)

theorem Monitor.Tracks.fill {m : Monitor β} {i : Nat} {head : List β} {rest : Schedule β}
    (tracks : m.Tracks ((i, .fill head) :: rest)) :
    m.writing ≠ some i ∧
      (⟨head, Function.update m.own i head, m.writing⟩ : Monitor β).Tracks rest := by
  have mine := tracks i
  rw [ofWriter_cons_self] at mine
  refine ⟨by simpa using mine.1, fun j => ?_⟩
  by_cases same : i = j
  · subst same
    rw [mine.1]
    exact mine.2
  · have others := tracks j
    rwa [ofWriter_cons_ne same] at others

theorem Monitor.Tracks.flush {m : Monitor β} {i : Nat} {rest : Schedule β}
    (tracks : m.Tracks ((i, .flush) :: rest)) (closed : m.writing = none) :
    ({ m with writing := some i } : Monitor β).Tracks rest := by
  intro j
  have now := tracks j
  by_cases same : i = j
  · subst same
    rw [ofWriter_cons_self] at now
    simpa using now.2
  · rw [ofWriter_cons_ne same, closed] at now
    simpa [same] using now

theorem Monitor.Tracks.print {m : Monitor β} {i : Nat} {body : List β} {rest : Schedule β}
    (tracks : m.Tracks ((i, .print body) :: rest)) :
    m.writing = some i ∧ ({ m with writing := none } : Monitor β).Tracks rest := by
  have mine := tracks i
  rw [ofWriter_cons_self] at mine
  have writing : m.writing = some i := by simpa using mine.1
  refine ⟨writing, fun j => ?_⟩
  by_cases same : i = j
  · subst same
    simpa using mine.2
  · have others := tracks j
    rw [ofWriter_cons_ne same, writing] at others
    simpa [same] using others

theorem recordsFrom_fill (own : Nat → List β) (i j : Nat) (head : List β) (rest : Schedule β) :
    recordsFrom (own j) (ofWriter j ((i, .fill head) :: rest)) =
      recordsFrom (Function.update own i head j) (ofWriter j rest) := by
  by_cases same : i = j
  · subst same
    rw [ofWriter_cons_self, Function.update_self]
    rfl
  · rw [ofWriter_cons_ne same, Function.update_of_ne (Ne.symm same)]

theorem recordsFrom_flush (own : Nat → List β) (i j : Nat) (rest : Schedule β) :
    recordsFrom (own j) (ofWriter j ((i, .flush) :: rest)) =
      recordsFrom (own j) (ofWriter j rest) := by
  by_cases same : i = j
  · subst same
    rw [ofWriter_cons_self]
    rfl
  · rw [ofWriter_cons_ne same]

theorem Monitor.Tracks.nil {m : Monitor β} (tracks : m.Tracks []) : m.writing = none := by
  cases found : m.writing with
  | none => rfl
  | some i =>
      have owed := tracks i
      simp [found, Alternates] at owed

/-- A writer that is not in the middle of a record may put a new head. -/
theorem Monitor.pending_fill {m : Monitor β} {i : Nat} {head : List β}
    (idle : m.writing ≠ some i) :
    (⟨head, Function.update m.own i head, m.writing⟩ : Monitor β).pending = m.pending := by
  unfold Monitor.pending
  cases found : m.writing with
  | none => rfl
  | some k =>
      have other : k ≠ i := fun same => idle (same ▸ found)
      exact Function.update_of_ne other ..

/-- A printed record stands before the records of the rest. -/
theorem Whole.print {own : Nat → List β} {i : Nat} {body base after : List β}
    {rest : Schedule β} (whole : Whole (base ++ (own i ++ body))
      (fun j => recordsFrom (own j) (ofWriter j rest)) after) :
    Whole base (fun j => recordsFrom (own j) (ofWriter j ((i, .print body) :: rest))) after := by
  obtain ⟨records, text, owned⟩ := whole
  refine ⟨(i, ⟨own i, body⟩) :: records, ?_, fun j => ?_⟩
  · rw [text, List.map_cons, List.flatten_cons, Record.text, List.append_assoc]
  · beta_reduce at owned ⊢
    by_cases same : i = j
    · subst same
      rw [ofWriter_cons_self, owned, ofWriter_cons_self]
      rfl
    · rw [ofWriter_cons_ne same, owned, ofWriter_cons_ne same]

/-- An orderly schedule appends whole records. -/
theorem orderly_whole {schedule : Schedule β} {w : State β} {m : Monitor β} {base : List β}
    (orderly : Orderly m schedule) (shared : m.buffer = w.buffer) (tracks : m.Tracks schedule)
    (written : w.log = base ++ m.pending) :
    Whole base (fun i => recordsFrom (m.own i) (ofWriter i schedule)) (w.run schedule).log := by
  induction schedule generalizing w m base with
  | nil =>
      refine ⟨[], ?_, fun i => rfl⟩
      rw [State.run, List.foldl_nil, written, Monitor.pending, tracks.nil]
      rfl
  | cons entry rest ih =>
      obtain ⟨i, action⟩ := entry
      cases action with
      | fill head =>
          obtain ⟨idle, later⟩ := tracks.fill
          simp only [recordsFrom_fill]
          have log : (w.apply (.fill head)).log =
              base ++ (⟨head, Function.update m.own i head, m.writing⟩ : Monitor β).pending := by
            rw [Monitor.pending_fill idle]
            exact written
          have whole := ih orderly rfl later log
          exact whole
      | flush =>
          obtain ⟨closed, held, after⟩ := orderly
          have log : (w.apply .flush).log = base ++ m.own i := by
            show w.log ++ w.buffer = _
            rw [written, Monitor.pending, closed, ← shared, held]
            simp
          simp only [recordsFrom_flush]
          have same : m.buffer = (w.apply .flush).buffer := shared
          have whole := ih after same (tracks.flush closed) log
          exact whole
      | print body =>
          obtain ⟨writing, later⟩ := tracks.print
          have log : (w.apply (.print body)).log = (base ++ (m.own i ++ body)) ++
              ({ m with writing := none } : Monitor β).pending := by
            show w.log ++ body = _
            rw [written, Monitor.pending, writing]
            simp [Monitor.pending]
          have same : m.buffer = (w.apply (.print body)).buffer := shared
          have whole := ih orderly same later log
          exact whole.print

/-! ## A single writer -/

/-- A writer that is alone writes its records one after the other. -/
theorem run_alone {i : Nat} {actions : List (Action β)} {owed : Bool}
    (alternates : Alternates owed actions) {w : State β} {base : List β}
    (written : w.log = base ++ if owed then w.buffer else []) :
    (w.run (actions.map (Prod.mk i))).log =
      base ++ ((recordsFrom w.buffer actions).map Record.text).flatten := by
  induction actions generalizing owed w base with
  | nil =>
      obtain rfl : owed = false := alternates
      exact written
  | cons action actions ih =>
      cases action with
      | fill head =>
          obtain ⟨rfl, later⟩ := alternates
          have log : (w.apply (.fill head)).log = base ++ if false then head else [] := written
          exact ih later log
      | flush =>
          obtain ⟨rfl, later⟩ := alternates
          have log : (w.apply .flush).log = base ++ if true then w.buffer else [] := by
            show w.log ++ w.buffer = _
            rw [written]
            simp
          exact ih later log
      | print body =>
          obtain ⟨rfl, later⟩ := alternates
          have log : (w.apply (.print body)).log =
              (base ++ (w.buffer ++ body)) ++ if false then w.buffer else [] := by
            show w.log ++ body = _
            rw [written]
            simp
          have text : ((recordsFrom w.buffer (.print body :: actions)).map Record.text).flatten =
              (w.buffer ++ body) ++ ((recordsFrom w.buffer actions).map Record.text).flatten := rfl
          rw [text, ← List.append_assoc]
          exact ih later log

end SharedBuffer
